import Courses.MapReduce.Model

/-!
# What the tasks write

A task reads its inputs and then changes files one call at a time. `doMap_eq` and
`doReduce_eq` give those calls as lists; the files after a list of calls are found name
by name, and no two tasks of a phase write under the same name.
-/
namespace Courses.MapReduce

/-! ## Lists of calls -/

namespace FileOp

variable {fs : FileSystem} {name : GoString}

def applyAll (fs : FileSystem) (ops : List FileOp) : FileSystem := ops.foldl apply fs

@[simp] theorem applyAll_nil : applyAll fs [] = fs := rfl

@[simp] theorem applyAll_cons (op : FileOp) (ops : List FileOp) :
    applyAll fs (op :: ops) = applyAll (op.apply fs) ops := rfl

theorem applyAll_append (ops ops' : List FileOp) :
    applyAll fs (ops ++ ops') = applyAll (applyAll fs ops) ops' := List.foldl_append

theorem apply_ne {op : FileOp} (h : name ≠ op.target) : op.apply fs name = fs name :=
  Function.update_of_ne h _ _

theorem apply_self (op : FileOp) : op.apply fs op.target = some (op.contents (fs op.target)) :=
  Function.update_self _ _ _

theorem applyAll_ne {ops : List FileOp} (h : ∀ op ∈ ops, name ≠ op.target) :
    applyAll fs ops name = fs name := by
  induction ops generalizing fs with
  | nil => rfl
  | cons op ops ih =>
    rw [applyAll_cons, ih fun op' hop' => h op' (List.mem_cons_of_mem _ hop')]
    exact apply_ne (h op List.mem_cons_self)

/-- The calls that change one file leave the same contents wherever they are made. -/
theorem applyAll_congr {fs' : FileSystem} (ops : List FileOp) (h : fs name = fs' name) :
    applyAll fs ops name = applyAll fs' ops name := by
  induction ops generalizing fs fs' with
  | nil => exact h
  | cons op ops ih =>
    apply ih
    by_cases hop : name = op.target
    · subst hop
      rw [apply_self, apply_self, h]
    · rw [apply_ne hop, apply_ne hop, h]

/-- Writes to one file append. -/
theorem applyAll_writes {α : Type} (f : α → List UInt8) (g : α → GoString) (xs : List α)
    {old : List UInt8} (h : fs name = some old) :
    applyAll fs (xs.map fun x => .write (g x) (f x)) name =
      some (old ++ (xs.filter fun x => g x = name).flatMap f) := by
  induction xs generalizing fs old with
  | nil => simpa using h
  | cons x xs ih =>
    rw [List.map_cons, applyAll_cons, List.filter_cons]
    by_cases hx : g x = name
    · have hwrite : (FileOp.write (g x) (f x)).apply fs name = some (old ++ f x) := by
        subst hx
        have hself : (FileOp.write (g x) (f x)).apply fs (g x) = some ((fs (g x)).getD [] ++ f x) :=
          apply_self _
        rw [hself, h, Option.getD_some]
      rw [ih hwrite, if_pos (decide_eq_true hx), List.flatMap_cons, List.append_assoc]
    · have hkeep : (FileOp.write (g x) (f x)).apply fs name = some old := by
        have hne : name ≠ (FileOp.write (g x) (f x)).target := fun hname => hx hname.symm
        rw [apply_ne hne, h]
      rw [ih hkeep, if_neg (by simpa using hx)]

end FileOp

/-! ## Names -/

theorem toNat_digit {d : ℕ} (h : d < 10) : (UInt8.ofNat (48 + d)).toNat = 48 + d := by
  rw [UInt8.toNat_ofNat']
  exact Nat.mod_eq_of_lt (by omega)

theorem mem_itoa {n : ℕ} {b : UInt8} (h : b ∈ itoa n) : 48 ≤ b.toNat ∧ b.toNat < 58 := by
  rw [itoa] at h
  split_ifs at h
  · rw [List.mem_singleton.mp h]
    decide
  · rw [List.mem_map] at h
    obtain ⟨d, hd, rfl⟩ := h
    have hlt := Nat.digits_lt_base (by norm_num) (List.mem_reverse.mp hd)
    rw [toNat_digit hlt]
    omega

/-- The digits give the number back. -/
theorem ofDigits_itoa (n : ℕ) :
    Nat.ofDigits 10 ((itoa n).reverse.map fun b => b.toNat - 48) = n := by
  rw [itoa]
  split_ifs with hn
  · rw [hn]
    rfl
  · have hdigits : (((Nat.digits 10 n).reverse.map fun d => UInt8.ofNat (48 + d)).reverse.map
        fun b => b.toNat - 48) = Nat.digits 10 n := by
      rw [← List.map_reverse, List.reverse_reverse, List.map_map]
      refine (List.map_congr_left fun d hd => ?_).trans (List.map_id _)
      rw [Function.comp_apply, toNat_digit (Nat.digits_lt_base (by norm_num) hd)]
      simp
    rw [hdigits, Nat.ofDigits_digits]

theorem itoa_injective : Function.Injective itoa := by
  intro m n h
  rw [← ofDigits_itoa m, ← ofDigits_itoa n, h]

theorem dash_notMem_itoa (n : ℕ) : (45 : UInt8) ∉ itoa n := by
  intro h
  have := (mem_itoa h).1
  revert this
  decide

theorem reduceName_injective {jobName : GoString} {m m' r r' : ℕ}
    (h : reduceName jobName m r = reduceName jobName m' r') : m = m' ∧ r = r' := by
  have hmid : itoa m ++ 45 :: itoa r = itoa m' ++ 45 :: itoa r' := by
    simpa [reduceName] using h
  obtain ⟨hm, -, hr⟩ :=
    (List.append_cons_inj_of_notMem (dash_notMem_itoa m) (dash_notMem_itoa r)).mp hmid
  exact ⟨itoa_injective hm, itoa_injective hr⟩

theorem mergeName_injective {jobName : GoString} {r r' : ℕ}
    (h : mergeName jobName r = mergeName jobName r') : r = r' :=
  itoa_injective (List.append_cancel_left h)

theorem reduceName_ne_mergeName (jobName : GoString) (m r r' : ℕ) :
    reduceName jobName m r ≠ mergeName jobName r' := by
  intro h
  have hmid : itoa m ++ 45 :: itoa r = [114, 101, 115] ++ 45 :: itoa r' := by
    simpa [reduceName, mergeName] using h
  obtain ⟨hm, -⟩ :=
    (List.append_cons_inj_of_notMem (dash_notMem_itoa m) (dash_notMem_itoa r)).mp hmid
  have := (mem_itoa (b := 114) (n := m) (hm ▸ List.mem_cons_self)).2
  revert this
  decide

theorem reduceName_ne_resultName (jobName : GoString) (m r : ℕ) :
    reduceName jobName m r ≠ resultName jobName := by
  intro h
  have := congrArg List.length h
  simp [reduceName, resultName] at this

theorem mergeName_ne_resultName (jobName : GoString) (r : ℕ) :
    mergeName jobName r ≠ resultName jobName := by
  intro h
  have := congrArg List.length h
  simp [mergeName, resultName] at this

/-! ## Map tasks -/

section Tasks

variable {json : Json} {jobName : GoString} {nReduce : ℕ}

/-- The reduce task of a key, where there is one. -/
def part (nReduce : ℕ) (key : GoString) : ℕ := (ihash key).toNat % (nReduce % 2 ^ 32)

/-- No division by zero: either the cut number of tasks is not zero, or no pair needs it. -/
def Splits (nReduce : ℕ) (kvs : List KeyValue) : Prop := nReduce % 2 ^ 32 ≠ 0 ∨ kvs = []

theorem part_lt (h : nReduce % 2 ^ 32 ≠ 0) (key : GoString) : part nReduce key < nReduce :=
  (Nat.mod_lt _ (Nat.pos_of_ne_zero h)).trans_le (Nat.mod_le _ _)

/-- The calls of a map task that emitted `kvs`. -/
def mapOps (json : Json) (jobName : GoString) (mapTaskNumber nReduce : ℕ) (kvs : List KeyValue) :
    List FileOp :=
  (List.range nReduce).map (fun r => .create (reduceName jobName mapTaskNumber r)) ++
    kvs.map fun kv => .write (reduceName jobName mapTaskNumber (part nReduce kv.key)) (json.encode kv)

theorem createFiles_eq (jobName : GoString) (m left i : ℕ) (fs : FileSystem) :
    createFiles jobName m left i fs = some ((), FileOp.applyAll fs
      ((List.range' i left).map fun r => .create (reduceName jobName m r))) := by
  induction left generalizing i fs with
  | zero => rfl
  | succ left ih =>
    rw [List.range'_succ, List.map_cons, FileOp.applyAll_cons]
    exact ih (i + 1) _

theorem encodeAll_eq {m : ℕ} {kvs : List KeyValue} (h : Splits nReduce kvs) (fs : FileSystem) :
    encodeAll json jobName m nReduce kvs fs = some ((), FileOp.applyAll fs
      (kvs.map fun kv => .write (reduceName jobName m (part nReduce kv.key)) (json.encode kv))) := by
  induction kvs generalizing fs with
  | nil => rfl
  | cons kv kvs ih =>
    have hne : nReduce % 2 ^ 32 ≠ 0 := h.resolve_right (List.cons_ne_nil _ _)
    have hpart : partitionOf nReduce kv.key = some (part nReduce kv.key) := by
      rw [partitionOf, if_neg hne, part]
    rw [encodeAll, hpart, List.map_cons, FileOp.applyAll_cons]
    exact ih (Or.inl hne) _

theorem encodeAll_panics {m : ℕ} {kvs : List KeyValue} (h : ¬ Splits nReduce kvs)
    (fs : FileSystem) : encodeAll json jobName m nReduce kvs fs = none := by
  rw [Splits, not_or, not_not] at h
  cases kvs with
  | nil => exact absurd rfl h.2
  | cons kv kvs =>
    rw [encodeAll, partitionOf, if_pos h.1]
    rfl

theorem doMap_eq {m : ℕ} {inFile : GoString} {mapF : MapF} {fs : FileSystem} {data : List UInt8}
    (hread : fs inFile = some data) (h : Splits nReduce (mapF inFile data)) :
    doMap json jobName m inFile nReduce mapF fs =
      some ((), FileOp.applyAll fs (mapOps json jobName m nReduce (mapF inFile data))) := by
  have hcreate := createFiles_eq jobName m nReduce 0 fs
  rw [← List.range_eq_range'] at hcreate
  rw [mapOps, FileOp.applyAll_append, ← encodeAll_eq h]
  change ((fs inFile).map (·, fs)).bind _ = _
  rw [hread]
  change (createFiles jobName m nReduce 0 fs).bind _ = _
  rw [hcreate]
  rfl

theorem doMap_panics {m : ℕ} {inFile : GoString} {mapF : MapF} {fs : FileSystem}
    {data : List UInt8} (hread : fs inFile = some data)
    (h : ¬ Splits nReduce (mapF inFile data)) :
    doMap json jobName m inFile nReduce mapF fs = none := by
  have hcreate := createFiles_eq jobName m nReduce 0 fs
  change ((fs inFile).map (·, fs)).bind _ = _
  rw [hread]
  change (createFiles jobName m nReduce 0 fs).bind _ = _
  rw [hcreate]
  exact encodeAll_panics h _

/-- What a map task leaves for a reduce task. -/
def partitionBytes (json : Json) (nReduce r : ℕ) (kvs : List KeyValue) : List UInt8 :=
  (kvs.filter fun kv => part nReduce kv.key = r).flatMap json.encode

theorem applyAll_mapOps {m r : ℕ} (kvs : List KeyValue) (hr : r < nReduce) (fs : FileSystem) :
    FileOp.applyAll fs (mapOps json jobName m nReduce kvs) (reduceName jobName m r) =
      some (partitionBytes json nReduce r kvs) := by
  have hcreated : FileOp.applyAll fs ((List.range nReduce).map fun r =>
      .create (reduceName jobName m r)) (reduceName jobName m r) = some [] := by
    rw [← List.take_append_drop r (List.range nReduce)]
    have hdrop : (List.range nReduce).drop r = r :: (List.range nReduce).drop (r + 1) := by
      rw [List.drop_eq_getElem_cons (by simpa using hr), List.getElem_range]
    rw [hdrop, List.map_append, FileOp.applyAll_append, List.map_cons, FileOp.applyAll_cons,
      FileOp.applyAll_ne]
    · exact FileOp.apply_self _
    · intro op hop hname
      rw [List.mem_map] at hop
      obtain ⟨r', hr', rfl⟩ := hop
      obtain ⟨-, rfl⟩ := reduceName_injective hname
      have hnodup := (List.nodup_range (n := nReduce)).sublist (List.drop_sublist r _)
      rw [hdrop, List.nodup_cons] at hnodup
      exact hnodup.1 hr'
  rw [mapOps, FileOp.applyAll_append, FileOp.applyAll_writes _ _ _ hcreated, List.nil_append,
    partitionBytes]
  congr 2
  apply List.filter_congr
  intro kv _
  rw [decide_eq_decide]
  exact ⟨fun h => (reduceName_injective h).2, fun h => by rw [h]⟩

theorem target_mapOps {m : ℕ} {kvs : List KeyValue} (h : Splits nReduce kvs) {op : FileOp}
    (hop : op ∈ mapOps json jobName m nReduce kvs) :
    ∃ r < nReduce, op.target = reduceName jobName m r := by
  rw [mapOps, List.mem_append, List.mem_map, List.mem_map] at hop
  rcases hop with ⟨r, hr, rfl⟩ | ⟨kv, hkv, rfl⟩
  · exact ⟨r, List.mem_range.mp hr, rfl⟩
  · rcases h with h | rfl
    · exact ⟨_, part_lt h kv.key, rfl⟩
    · cases hkv

/-! ## Reduce tasks -/

/-- The values emitted for a key, in order. -/
def valuesOf (key : GoString) (kvs : List KeyValue) : List GoString :=
  (kvs.filter fun kv => kv.key = key).map KeyValue.value

theorem Groups.lookup_add (g : Groups) (kv : KeyValue) (key : GoString) :
    (g.add kv).lookup key =
      if key = kv.key then some ((g.lookup key).getD [] ++ [kv.value]) else g.lookup key := by
  rw [Groups.add]
  split_ifs with hmem hkey hkey
  · rw [hkey, AList.lookup_insert]
  · exact AList.lookup_insert_ne hkey
  · rw [hkey, AList.lookup_insert, AList.lookup_insert, AList.lookup_eq_none.mpr hmem]
    rfl
  · rw [AList.lookup_insert_ne hkey, AList.lookup_insert_ne hkey]

/-- The groups of the pairs in `kvs`. -/
def groupsOf (kvs : List KeyValue) : Groups := kvs.foldl Groups.add ∅

theorem lookup_foldl_add (kvs : List KeyValue) (g : Groups) (key : GoString) :
    (kvs.foldl Groups.add g).lookup key =
      if valuesOf key kvs = [] then g.lookup key
      else some ((g.lookup key).getD [] ++ valuesOf key kvs) := by
  induction kvs generalizing g with
  | nil => rfl
  | cons kv kvs ih =>
    rw [List.foldl_cons, ih, Groups.lookup_add]
    by_cases hkey : kv.key = key
    · have hvalues : valuesOf key (kv :: kvs) = kv.value :: valuesOf key kvs := by
        simp [valuesOf, hkey]
      rw [hvalues, if_pos hkey.symm, if_neg (List.cons_ne_nil _ _)]
      split_ifs with hnil
      · rw [hnil]
      · rw [Option.getD_some, List.append_assoc, List.singleton_append]
    · have hvalues : valuesOf key (kv :: kvs) = valuesOf key kvs := by
        simp [valuesOf, hkey]
      rw [hvalues, if_neg (Ne.symm hkey)]

theorem lookup_groupsOf (kvs : List KeyValue) (key : GoString) :
    (groupsOf kvs).lookup key = if valuesOf key kvs = [] then none else some (valuesOf key kvs) := by
  rw [groupsOf, lookup_foldl_add]
  rfl

theorem valuesOf_eq_nil {kvs : List KeyValue} {key : GoString} :
    valuesOf key kvs = [] ↔ key ∉ kvs.map KeyValue.key := by
  rw [valuesOf, List.map_eq_nil_iff, List.filter_eq_nil_iff, List.mem_map]
  push Not
  exact ⟨fun h kv hkv => by simpa using h kv hkv, fun h kv hkv => by simpa using h kv hkv⟩

theorem mem_groupsOf {kvs : List KeyValue} {key : GoString} :
    key ∈ (groupsOf kvs).keys ↔ key ∈ kvs.map KeyValue.key := by
  rw [← AList.mem_keys, ← AList.lookup_isSome, lookup_groupsOf]
  split_ifs with h
  · exact iff_of_false (by simp) (valuesOf_eq_nil.mp h)
  · rw [valuesOf_eq_nil, not_not] at h
    exact iff_of_true rfl h

theorem Json.RoundTrips.encode_ne_nil (hjson : json.RoundTrips) {kv : KeyValue} (h : kv.Valid) :
    json.encode kv ≠ [] := by
  intro hnil
  have := hjson.more_encode kv [] h
  rw [hnil, List.append_nil, hjson.more_nil] at this
  cases this

theorem Json.RoundTrips.length_le (hjson : json.RoundTrips) {kvs : List KeyValue}
    (h : ∀ kv ∈ kvs, kv.Valid) : kvs.length ≤ (kvs.flatMap json.encode).length := by
  induction kvs with
  | nil => exact Nat.zero_le _
  | cons kv kvs ih =>
    have hpos := List.length_pos_iff.mpr (hjson.encode_ne_nil (h kv List.mem_cons_self))
    have hrest := ih fun kv' hkv' => h kv' (List.mem_cons_of_mem _ hkv')
    rw [List.flatMap_cons, List.length_append, List.length_cons]
    omega

theorem decodeGroups_eq (hjson : json.RoundTrips) {kvs : List KeyValue}
    (h : ∀ kv ∈ kvs, kv.Valid) {fuel : ℕ} (hfuel : kvs.length < fuel) (g : Groups) :
    decodeGroups json fuel (kvs.flatMap json.encode) g = some (kvs.foldl Groups.add g) := by
  induction kvs generalizing fuel g with
  | nil =>
    obtain ⟨fuel, rfl⟩ := Nat.exists_eq_succ_of_ne_zero (Nat.ne_of_gt hfuel)
    rw [List.flatMap_nil, decodeGroups, hjson.more_nil]
    rfl
  | cons kv kvs ih =>
    rw [List.length_cons] at hfuel
    obtain ⟨fuel, rfl⟩ := Nat.exists_eq_succ_of_ne_zero (Nat.ne_zero_of_lt hfuel)
    have hkv := h kv List.mem_cons_self
    rw [List.flatMap_cons, decodeGroups, hjson.more_encode _ _ hkv, if_pos rfl,
      hjson.decode_encode _ _ hkv]
    exact ih (fun kv' hkv' => h kv' (List.mem_cons_of_mem _ hkv')) (by omega) _

/-- The files of the map tasks `i`, `i + 1`, … hold what those emitted for task `r`. -/
def HoldsParts (json : Json) (jobName : GoString) (nReduce r : ℕ) (fs : FileSystem) (i : ℕ)
    (emitted : List (List KeyValue)) : Prop :=
  ∀ m kvs, emitted[m]? = some kvs →
    fs (reduceName jobName (i + m) r) = some (partitionBytes json nReduce r kvs)

/-- The pairs of a reduce task, in the order it reads them. -/
def partKVs (nReduce r : ℕ) (emitted : List (List KeyValue)) : List KeyValue :=
  emitted.flatten.filter fun kv => part nReduce kv.key = r

theorem readGroups_eq (hjson : json.RoundTrips) {r : ℕ} {fs : FileSystem}
    (emitted : List (List KeyValue)) (hvalid : ∀ kvs ∈ emitted, ∀ kv ∈ kvs, kv.Valid) {i : ℕ}
    (h : HoldsParts json jobName nReduce r fs i emitted) (g : Groups) :
    readGroups json jobName r emitted.length i g fs =
      some ((partKVs nReduce r emitted).foldl Groups.add g, fs) := by
  induction emitted generalizing i g with
  | nil => rfl
  | cons kvs emitted ih =>
    have hhead : fs (reduceName jobName i r) = some (partitionBytes json nReduce r kvs) :=
      h 0 kvs rfl
    have htail : HoldsParts json jobName nReduce r fs (i + 1) emitted := by
      intro m kvs' hm
      have := h (m + 1) kvs' hm
      rwa [show i + (m + 1) = i + 1 + m by omega] at this
    have hvalid' : ∀ kv ∈ kvs.filter fun kv => part nReduce kv.key = r, kv.Valid :=
      fun kv hkv => hvalid kvs List.mem_cons_self kv (List.mem_of_mem_filter hkv)
    have hdecode := decodeGroups_eq hjson hvalid'
      (Nat.lt_succ_of_le (hjson.length_le hvalid')) g
    rw [List.length_cons]
    change ((fs (reduceName jobName i r)).map (·, fs)).bind _ = _
    rw [hhead, Option.map_some, Option.bind_some]
    dsimp only
    rw [partitionBytes, hdecode]
    dsimp only
    rw [ih (fun kvs' hkvs' => hvalid kvs' (List.mem_cons_of_mem _ hkvs')) htail, partKVs, partKVs,
      List.flatten_cons, List.filter_append, List.foldl_append]

/-- What a reduce task puts out for the pairs it read. -/
def reduceOutputs (reduceF : ReduceF) (kvs : List KeyValue) : List KeyValue :=
  (sortStrings (groupsOf kvs).keys).map fun key => ⟨key, reduceF key (valuesOf key kvs)⟩

/-- The calls of a reduce task with these outputs. -/
def reduceOps (json : Json) (jobName : GoString) (reduceTaskNumber : ℕ)
    (outputs : List KeyValue) : List FileOp :=
  .create (mergeName jobName reduceTaskNumber) ::
    outputs.map fun kv => .write (mergeName jobName reduceTaskNumber) (json.encode kv)

theorem encodeGroups_eq {r : ℕ} {reduceF : ReduceF} (g : Groups) (keys : List GoString)
    (fs : FileSystem) :
    encodeGroups json jobName r reduceF g keys fs = some ((), FileOp.applyAll fs
      (keys.map fun key => .write (mergeName jobName r)
        (json.encode ⟨key, reduceF key ((g.lookup key).getD [])⟩))) := by
  induction keys generalizing fs with
  | nil => rfl
  | cons key keys ih =>
    rw [List.map_cons, FileOp.applyAll_cons]
    exact ih _

theorem mem_sortStrings {keys : List GoString} {key : GoString} :
    key ∈ sortStrings keys ↔ key ∈ keys := List.mem_insertionSort _

theorem doReduce_eq (reduceF : ReduceF) (hjson : json.RoundTrips) {r : ℕ} {fs : FileSystem}
    {emitted : List (List KeyValue)} (hvalid : ∀ kvs ∈ emitted, ∀ kv ∈ kvs, kv.Valid)
    (h : HoldsParts json jobName nReduce r fs 0 emitted) :
    doReduce json jobName r emitted.length reduceF fs = some ((), FileOp.applyAll fs
      (reduceOps json jobName r (reduceOutputs reduceF (partKVs nReduce r emitted)))) := by
  have hread := readGroups_eq hjson emitted hvalid h ∅
  change (readGroups json jobName r emitted.length 0 ∅ fs).bind _ = _
  rw [hread]
  change encodeGroups json jobName r reduceF (groupsOf (partKVs nReduce r emitted))
    (sortStrings (groupsOf (partKVs nReduce r emitted)).keys) _ = _
  rw [encodeGroups_eq, reduceOps, FileOp.applyAll_cons, reduceOutputs, List.map_map]
  congr 3
  apply List.map_congr_left
  intro key hkey
  rw [mem_sortStrings, mem_groupsOf] at hkey
  have hne : valuesOf key (partKVs nReduce r emitted) ≠ [] :=
    fun hnil => valuesOf_eq_nil.mp hnil hkey
  rw [Function.comp_apply, lookup_groupsOf, if_neg hne, Option.getD_some]

theorem applyAll_reduceOps {r : ℕ} (outputs : List KeyValue) (fs : FileSystem) :
    FileOp.applyAll fs (reduceOps json jobName r outputs) (mergeName jobName r) =
      some (outputs.flatMap json.encode) := by
  have hcreated : FileOp.apply fs (.create (mergeName jobName r)) (mergeName jobName r) = some [] :=
    FileOp.apply_self _
  rw [reduceOps, FileOp.applyAll_cons, FileOp.applyAll_writes _ _ _ hcreated]
  simp

theorem target_reduceOps {r : ℕ} {outputs : List KeyValue} {op : FileOp}
    (hop : op ∈ reduceOps json jobName r outputs) : op.target = mergeName jobName r := by
  rw [reduceOps, List.mem_cons, List.mem_map] at hop
  rcases hop with rfl | ⟨kv, -, rfl⟩
  · rfl
  · rfl

end Tasks
end Courses.MapReduce
