import Courses.SearchEngine.FileCrawler

/-!
# The document table as a bijection

`hw2/doctable.c` numbers document names in the order in which they are first registered.
Its two hash tables are the two directions of one bijection between the names and the
numbers from 1 on. The number 0 stands for no document, and may not be looked up.
-/
namespace Courses.SearchEngine

open Courses.Lib Courses.Lib.AllocM

/-- The name of a document, or NULL. -/
def dtLookupDocID (table : DocTableRecord) (docid : HTKey) : AllocM (Option CString) := do
  verify (docid ≠ 0)
  let res ← lookupHashTable table.docidToDocname docid
  if res.ret = 1 then
    let kv ← demand res.keyvalue
    return some kv.value
  else
    return none

/-- One registration after another, and the numbers they answer. -/
def registerNames (table : DocTableRecord) : List CString → AllocM (List HTKey × DocTableRecord)
  | [] => return ([], table)
  | name :: names => do
    let (docid, table) ← dtRegisterDocumentName table name
    let (docids, table) ← registerNames table names
    return (docid :: docids, table)

/-! ## The numbering -/

/-- The names registered so far, after one more. -/
def addName (known : List CString) (name : CString) : List CString :=
  if name ∈ known then known else known ++ [name]

/-- The different names, in the order in which each came first. -/
def distinctNames (names : List CString) : List CString := names.foldl addName []

/-- The number of a name, or 0. -/
def numberOf (known : List CString) (name : CString) : HTKey :=
  if name ∈ known then docNumber (known.idxOf name) else 0

section Numbering

variable {known names : List CString} {name : CString}

theorem prefix_addName : known <+: addName known name := by
  unfold addName
  split
  · exact List.prefix_refl _
  · exact List.prefix_append _ _

theorem prefix_foldl_addName : known <+: names.foldl addName known := by
  induction names generalizing known with
  | nil => exact List.prefix_refl _
  | cons name names ih => exact prefix_addName.trans ih

theorem mem_addName {w : CString} : w ∈ addName known name ↔ w ∈ known ∨ w = name := by
  unfold addName
  split
  · next hmem =>
    constructor
    · exact Or.inl
    · rintro (hw | rfl)
      · exact hw
      · exact hmem
  · rw [List.mem_append, List.mem_singleton]

theorem mem_foldl_addName {w : CString} : w ∈ names.foldl addName known ↔ w ∈ known ∨ w ∈ names := by
  induction names generalizing known with
  | nil => simp
  | cons name names ih => rw [List.foldl_cons, ih, mem_addName, List.mem_cons, or_assoc]

theorem mem_distinctNames {w : CString} : w ∈ distinctNames names ↔ w ∈ names := by
  rw [distinctNames, mem_foldl_addName]
  simp

theorem nodup_foldl_addName (h : known.Nodup) : (names.foldl addName known).Nodup := by
  induction names generalizing known with
  | nil => exact h
  | cons name names ih =>
    apply ih
    unfold addName
    split
    · exact h
    · next hnot => exact h.append (List.nodup_singleton _) (by simpa using hnot)

theorem nodup_distinctNames (names : List CString) : (distinctNames names).Nodup :=
  nodup_foldl_addName List.nodup_nil

/-- A number once given does not change. -/
theorem numberOf_foldl_addName (hname : name ∈ known) :
    numberOf (names.foldl addName known) name = numberOf known name := by
  have hgrown : known <+: names.foldl addName known := prefix_foldl_addName
  obtain ⟨rest, hrest⟩ := hgrown
  rw [numberOf, numberOf, if_pos hname, if_pos (mem_foldl_addName.mpr (Or.inl hname)), ← hrest,
    List.idxOf_append_of_mem hname]

end Numbering

/-! ## Calls -/

section Calls

variable {table : DocTableRecord} {known names : List CString} {name : CString}

/-- The hash tells the name from the known ones. -/
def HashTells (known : List CString) (name : CString) : Prop :=
  ∀ w ∈ known, wordKey w = wordKey name → w = name

theorem returns_dtLookupDocumentName (h : table.Holds known)
    (htells : HashTells known name) :
    Returns (dtLookupDocumentName table name) fun r => r = numberOf known name := by
  obtain ⟨-, ⟨docids, hdocids, hrepr⟩, -⟩ := h
  refine (returns_lookupHashTable hdocids (wordKey name)).bind_eq ?_
  unfold numberOf
  by_cases hmem : name ∈ known
  · rw [if_pos hmem]
    have hlookup : docids.lookup (wordKey name) = some (docNumber (known.idxOf name)) := by
      rw [← hrepr.mem_iff, List.mem_mapIdx]
      exact ⟨known.idxOf name, List.idxOf_lt_length_of_mem hmem, by rw [List.getElem_idxOf]⟩
    rw [lookupAnswer, hlookup, if_pos rfl]
    exact (returns_demand rfl).bind_eq (returns_pure rfl)
  · rw [if_neg hmem]
    have hkey : wordKey name ∉
        (known.mapIdx fun i name => (wordKey name, docNumber i)).map Prod.fst := by
      rw [List.mem_map]
      rintro ⟨e, he, heq⟩
      obtain ⟨i, hi, rfl⟩ := List.mem_mapIdx.1 he
      exact hmem (htells _ (List.getElem_mem hi) heq ▸ List.getElem_mem hi)
    rw [lookupAnswer, hrepr.lookup_eq_none hkey, if_neg (by simp)]
    exact returns_pure rfl

theorem returns_dtLookupDocID (h : table.Holds known) (hlen : known.length < 2 ^ 32) {docid : HTKey}
    (hdocid : docid ≠ 0) :
    Returns (dtLookupDocID table docid) fun r => r = known[docid.toNat - 1]? := by
  obtain ⟨⟨docnames, hdocnames, hrepr⟩, -, -⟩ := h
  refine (returns_verify (by simpa using hdocid)).bind fun _ _ => ?_
  refine (returns_lookupHashTable hdocnames docid).bind_eq ?_
  have hpos : docid.toNat ≠ 0 := fun hzero => hdocid (UInt64.toNat_inj.mp hzero)
  cases hget : known[docid.toNat - 1]? with
  | none =>
    have hkey : docid ∉ (known.mapIdx fun i name => (docNumber i, name)).map Prod.fst := by
      rw [List.mem_map]
      rintro ⟨e, he, heq⟩
      obtain ⟨i, hi, rfl⟩ := List.mem_mapIdx.1 he
      have hnat : i + 1 = docid.toNat := (toNat_docNumber (by omega)).symm.trans (congrArg _ heq)
      have hle := List.getElem?_eq_none_iff.mp hget
      omega
    rw [lookupAnswer, hrepr.lookup_eq_none hkey, if_neg (by simp)]
    exact returns_pure rfl
  | some name =>
    obtain ⟨hlt, hname⟩ := List.getElem?_eq_some_iff.mp hget
    have hnumber : docNumber (docid.toNat - 1) = docid := by
      rw [← UInt64.toNat_inj, toNat_docNumber (by omega)]
      omega
    have hlookup : docnames.lookup docid = some name := by
      rw [← hrepr.mem_iff, List.mem_mapIdx]
      exact ⟨docid.toNat - 1, hlt, by rw [hnumber, hname]⟩
    rw [lookupAnswer, hlookup, if_pos rfl]
    exact (returns_demand rfl).bind_eq (returns_pure rfl)

theorem numberOf_ne_zero (hlen : known.length < 2 ^ 32) (hmem : name ∈ known) :
    numberOf known name ≠ 0 := by
  have hlt := List.idxOf_lt_length_of_mem hmem
  rw [numberOf, if_pos hmem, Ne, ← UInt64.toNat_inj, toNat_docNumber (by omega)]
  exact Nat.succ_ne_zero _

/-- A known name keeps its number, and the table stays as it is. -/
theorem returns_dtRegisterDocumentName_known (h : table.Holds known)
    (hlen : known.length < 2 ^ 32) (htells : HashTells known name) (hmem : name ∈ known) :
    Returns (dtRegisterDocumentName table name) fun r => r = (numberOf known name, table) := by
  apply returns_malloc_bind
  apply returns_malloc_bind
  refine (returns_verify rfl).bind fun _ _ => (returns_verify rfl).bind fun _ _ => ?_
  refine (returns_dtLookupDocumentName h htells).bind_eq ?_
  rw [if_pos (numberOf_ne_zero hlen hmem)]
  exact returns_pure rfl

theorem returns_dtRegisterDocumentName_addName (h : table.Holds known) (htells : HashTells known name)
    (hlen : (addName known name).length < 2 ^ 32) :
    Returns (dtRegisterDocumentName table name) fun r =>
      r.1 = numberOf (addName known name) name ∧ r.2.Holds (addName known name) := by
  unfold addName at hlen ⊢
  split at hlen
  · next hmem =>
    refine (returns_dtRegisterDocumentName_known h hlen htells hmem).mono ?_
    rintro _ rfl
    rw [if_pos hmem]
    exact ⟨rfl, h⟩
  · next hnot =>
    have hnew : wordKey name ∉ known.map wordKey := by
      intro hkey
      obtain ⟨w, hw, heq⟩ := List.mem_map.mp hkey
      exact hnot (htells w hw heq ▸ hw)
    rw [List.length_append, List.length_singleton] at hlen
    refine (returns_dtRegisterDocumentName h hlen hnew).mono ?_
    rintro r ⟨hr, hholds⟩
    rw [if_neg hnot]
    refine ⟨?_, hholds⟩
    rw [hr, numberOf, if_pos (by simp), List.idxOf_append_of_notMem hnot]
    simp

theorem returns_registerNames (h : table.Holds known)
    (hinj : Set.InjOn wordKey {w | w ∈ known ∨ w ∈ names})
    (hlen : (names.foldl addName known).length < 2 ^ 32) :
    Returns (registerNames table names) fun r =>
      r.1 = names.map (numberOf (names.foldl addName known)) ∧
        r.2.Holds (names.foldl addName known) := by
  induction names generalizing table known with
  | nil => exact returns_pure ⟨rfl, h⟩
  | cons name names ih =>
    rw [List.foldl_cons] at hlen ⊢
    have htells : HashTells known name := fun w hw heq =>
      hinj (Or.inl hw) (Or.inr List.mem_cons_self) heq
    have hroom : (addName known name).length < 2 ^ 32 :=
      prefix_foldl_addName.length_le.trans_lt hlen
    have hinj' : Set.InjOn wordKey {w | w ∈ addName known name ∨ w ∈ names} := by
      apply hinj.mono
      rintro w (hw | hw)
      · rcases mem_addName.mp hw with hw | rfl
        · exact Or.inl hw
        · exact Or.inr List.mem_cons_self
      · exact Or.inr (List.mem_cons_of_mem _ hw)
    refine (returns_dtRegisterDocumentName_addName h htells hroom).bind ?_
    rintro ⟨docid, table'⟩ ⟨hdocid, h'⟩
    refine (ih h' hinj' hlen).bind ?_
    rintro ⟨docids, table''⟩ ⟨hdocids, h''⟩
    refine returns_pure ⟨?_, h''⟩
    rw [List.map_cons, numberOf_foldl_addName (mem_addName.mpr (Or.inr rfl))]
    exact List.cons_eq_cons.mpr ⟨hdocid, hdocids⟩

end Calls

/-! ## The bijection -/

/-- A new table with the names registered in turn. -/
def newDocTable (names : List CString) : AllocM (List HTKey × DocTableRecord) := do
  registerNames (← allocateDocTable) names

/-- What a table answers in which the names have been registered. -/
structure Numbers (table : DocTableRecord) (names : List CString) : Prop where
  /-- A registered name has its number; a name that the hash tells from them has none. -/
  docid : ∀ w, HashTells names w → Returns (dtLookupDocumentName table w) fun r =>
    r = numberOf (distinctNames names) w
  /-- The numbers are those from 1 to the number of different names; others have no name. -/
  name : ∀ d, d ≠ 0 → Returns (dtLookupDocID table d) fun r =>
    r = (distinctNames names)[d.toNat - 1]?
  again : ∀ w ∈ names, Returns (dtRegisterDocumentName table w) fun r =>
    r = (numberOf (distinctNames names) w, table)
  docid_name : ∀ w ∈ names, ∃ d, 1 ≤ d.toNat ∧ d.toNat ≤ (distinctNames names).length ∧
    Returns (dtLookupDocumentName table w) (fun r => r = d) ∧
      Returns (dtLookupDocID table d) fun r => r = some w
  name_docid : ∀ d, 1 ≤ d.toNat → d.toNat ≤ (distinctNames names).length → ∃ w ∈ names,
    Returns (dtLookupDocID table d) (fun r => r = some w) ∧
      Returns (dtLookupDocumentName table w) fun r => r = d

section Bijection

variable {table : DocTableRecord} {names : List CString}

theorem DocTableRecord.Holds.numbers (h : table.Holds (distinctNames names))
    (hinj : Set.InjOn wordKey {w | w ∈ names}) (hlen : (distinctNames names).length < 2 ^ 32) :
    Numbers table names := by
  have htells : ∀ w, HashTells names w → HashTells (distinctNames names) w :=
    fun w hw v hv => hw v (mem_distinctNames.mp hv)
  have hknown : ∀ w ∈ names, HashTells (distinctNames names) w :=
    fun w hw => htells w fun v hv heq => hinj hv hw heq
  refine ⟨fun w hw => returns_dtLookupDocumentName h (htells w hw),
    fun d hd => returns_dtLookupDocID h hlen hd,
    fun w hw => returns_dtRegisterDocumentName_known h hlen (hknown w hw) (mem_distinctNames.mpr hw),
    fun w hw => ?_, fun d hpos hle => ?_⟩
  · have hmem := mem_distinctNames.mpr hw
    have hlt := List.idxOf_lt_length_of_mem hmem
    have hnumber : (numberOf (distinctNames names) w).toNat = (distinctNames names).idxOf w + 1 := by
      rw [numberOf, if_pos hmem, toNat_docNumber (by omega)]
    refine ⟨numberOf (distinctNames names) w, by omega, by omega,
      returns_dtLookupDocumentName h (hknown w hw), ?_⟩
    refine (returns_dtLookupDocID h hlen (numberOf_ne_zero hlen hmem)).mono ?_
    rintro _ rfl
    rw [hnumber, Nat.add_sub_cancel, List.getElem?_eq_getElem hlt, List.getElem_idxOf]
  · have hlt : d.toNat - 1 < (distinctNames names).length := by omega
    have hmem := List.getElem_mem hlt
    have hd : d ≠ 0 := by
      rintro rfl
      exact absurd hpos (by decide)
    refine ⟨(distinctNames names)[d.toNat - 1], mem_distinctNames.mp hmem, ?_, ?_⟩
    · refine (returns_dtLookupDocID h hlen hd).mono ?_
      rintro _ rfl
      rw [List.getElem?_eq_getElem hlt]
    · refine (returns_dtLookupDocumentName h (hknown _ (mem_distinctNames.mp hmem))).mono ?_
      rintro _ rfl
      rw [numberOf, if_pos hmem, (nodup_distinctNames names).idxOf_getElem, ← UInt64.toNat_inj,
        toNat_docNumber (by omega)]
      omega

/-- Registering names in any order, some of them repeatedly, numbers the different ones
from 1 on, and the table answers with this numbering in both directions. -/
theorem docTable_numbers (hinj : Set.InjOn wordKey {w | w ∈ names})
    (hlen : (distinctNames names).length < 2 ^ 32) :
    Returns (newDocTable names) fun r =>
      r.1 = names.map (numberOf (distinctNames names)) ∧ Numbers r.2 names := by
  refine returns_allocateDocTable.bind fun table htable => ?_
  have hinj' : Set.InjOn wordKey {w | w ∈ ([] : List CString) ∨ w ∈ names} := by
    simpa using hinj
  refine (returns_registerNames htable hinj' hlen).mono ?_
  rintro r ⟨hdocids, hholds⟩
  exact ⟨hdocids, hholds.numbers hinj hlen⟩

end Bijection

/-- The names `"a"` and `"b"`. -/
def nameA : CString := ⟨[97], CString.nonul_a⟩
def nameB : CString := ⟨[98], CString.nonul_b⟩

theorem docTable_numbers_repeated : Returns (newDocTable [nameB, nameA, nameB]) fun r =>
    r.1 = [1, 2, 1] ∧ Numbers r.2 [nameB, nameA, nameB] := by
  have hinj : Set.InjOn wordKey {w | w ∈ [nameB, nameA, nameB]} := by
    have hall : ∀ v ∈ [nameB, nameA, nameB], ∀ w ∈ [nameB, nameA, nameB],
        wordKey v = wordKey w → v = w := by decide +kernel
    exact fun v hv w hw => hall v hv w hw
  refine (docTable_numbers hinj (by decide +kernel)).mono ?_
  rintro r ⟨hdocids, hnumbers⟩
  exact ⟨hdocids.trans (by decide +kernel), hnumbers⟩

/-- The name `"a"` with `n` more bytes. -/
def paddedName (n : ℕ) : CString where
  bytes := 97 :: List.replicate n 98
  nonul := by
    rw [List.mem_cons, List.mem_replicate]
    rintro (h | ⟨-, h⟩)
    · exact absurd h (by decide)
    · exact absurd h (by decide)

/-- The hash sees as many bytes as the low 32 bits of the length say. -/
theorem wordKey_paddedName {n : ℕ} (hn : (n + 1) % 2 ^ 32 = 1) :
    wordKey (paddedName n) = wordKey nameA := by
  have hlen : u32 (strlen (paddedName n)) = 1 := by
    rw [u32, strlen, paddedName, List.length_cons, List.length_replicate]
    exact hn
  rw [wordKey, hlen]
  rfl

theorem docTable_unknown_of_paddedName {n : ℕ} (hpos : n ≠ 0) (hn : (n + 1) % 2 ^ 32 = 1) :
    Aborts (newDocTable [nameA] >>= fun r => dtLookupDocID r.2 0) ∧ paddedName n ∉ [nameA] ∧
      Returns (newDocTable [nameA] >>= fun r => dtLookupDocumentName r.2 (paddedName n))
        fun r => r = 1 := by
  have hinj : Set.InjOn wordKey {w | w ∈ [nameA]} := by
    intro v hv w hw _
    rw [List.mem_singleton.mp hv, List.mem_singleton.mp hw]
  have hnew := docTable_numbers hinj (by decide +kernel)
  refine ⟨hnew.aborts_bind fun r _ => ?_, ?_, hnew.bind fun r hr => ?_⟩
  · exact fun _ => rfl
  · intro hmem
    have hbytes := congrArg strlen (List.mem_singleton.mp hmem)
    rw [strlen, paddedName, List.length_cons, List.length_replicate] at hbytes
    exact hpos (Nat.succ.inj hbytes)
  · have hlookup := hr.2.docid nameA fun w hw _ => List.mem_singleton.mp hw
    unfold dtLookupDocumentName at hlookup ⊢
    rw [wordKey_paddedName hn]
    exact hlookup.mono fun d hd => hd.trans (by decide +kernel)

/-- Not every unknown name and number is reported as such: `DTLookupDocID` stops at the
number 0, and a name that was never registered may have the hash of one that was. -/
theorem docTable_unknown :
    Aborts (newDocTable [nameA] >>= fun r => dtLookupDocID r.2 0) ∧
      paddedName (2 ^ 32) ∉ [nameA] ∧
        Returns (newDocTable [nameA] >>= fun r => dtLookupDocumentName r.2 (paddedName (2 ^ 32)))
          fun r => r = 1 :=
  docTable_unknown_of_paddedName (Nat.two_pow_pos 32).ne' (by norm_num)

end Courses.SearchEngine
