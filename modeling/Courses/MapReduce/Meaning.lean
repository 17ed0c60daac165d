import Courses.MapReduce.Tasks

/-!
# The meaning of a job

The map phase leaves every emitted pair in the file of its reduce task, the reduce phase
one output per key, and the merge one line per key. The outcome is stated against the
pairs that the calls of `mapF` emitted, in the order of the tasks.
-/
namespace Courses.MapReduce

section Phases

variable {json : Json} {jobName : GoString} {nReduce : ℕ} {mapF : MapF} {reduceF : ReduceF}

/-! ## The map phase -/

/-- What the calls of `mapF` emit in the map phase of a run from `fs`, task by task. -/
def emitted (json : Json) (jobName : GoString) (nReduce : ℕ) (mapF : MapF) :
    ℕ → List GoString → FileSystem → List (List KeyValue)
  | _, [], _ => []
  | i, file :: files, fs =>
    mapF file ((fs file).getD []) ::
      match doMap json jobName i file nReduce mapF fs with
      | none => []
      | some (_, fs') => emitted json jobName nReduce mapF (i + 1) files fs'

theorem FileOp.applyAll_isSome (ops : List FileOp) {fs : FileSystem} {name : GoString}
    (h : (fs name).isSome) : (FileOp.applyAll fs ops name).isSome := by
  induction ops generalizing fs with
  | nil => exact h
  | cons op ops ih =>
    apply ih
    by_cases hop : name = op.target
    · rw [hop, apply_self]
      rfl
    · rwa [apply_ne hop]

variable {files : List GoString} {fs : FileSystem} {i : ℕ}

/-- One task: either it splits what it emits, and is a list of calls, or it panics. -/
theorem doMap_cases (json : Json) (jobName : GoString) (nReduce : ℕ) (mapF : MapF) (m : ℕ)
    {file : GoString} (hfile : ∃ data, fs file = some data) :
    (Splits nReduce (mapF file ((fs file).getD [])) ∧
      doMap json jobName m file nReduce mapF fs = some ((), FileOp.applyAll fs
        (mapOps json jobName m nReduce (mapF file ((fs file).getD []))))) ∨
    (¬ Splits nReduce (mapF file ((fs file).getD [])) ∧
      doMap json jobName m file nReduce mapF fs = none) := by
  obtain ⟨data, hdata⟩ := hfile
  rw [hdata, Option.getD_some]
  by_cases h : Splits nReduce (mapF file data)
  · exact Or.inl ⟨h, doMap_eq hdata h⟩
  · exact Or.inr ⟨h, doMap_panics hdata h⟩

/-- The files as the map phase leaves them. -/
structure Mapped (json : Json) (jobName : GoString) (nReduce : ℕ) (fs : FileSystem) (i : ℕ)
    (emitted : List (List KeyValue)) (fs' : FileSystem) : Prop where
  parts : ∀ r < nReduce, HoldsParts json jobName nReduce r fs' i emitted
  others : ∀ name, (∀ m r, i ≤ m → m < i + emitted.length → r < nReduce →
    name ≠ reduceName jobName m r) → fs' name = fs name

theorem Mapped.cons {kvs : List KeyValue} {rest : List (List KeyValue)} {fs' : FileSystem}
    (hsplit : Splits nReduce kvs)
    (h : Mapped json jobName nReduce (FileOp.applyAll fs (mapOps json jobName i nReduce kvs))
      (i + 1) rest fs') : Mapped json jobName nReduce fs i (kvs :: rest) fs' where
  parts := by
    intro r hr m kvs' hm
    cases m with
    | zero =>
      cases hm
      rw [Nat.add_zero, h.others, applyAll_mapOps _ hr]
      intro m r' hle _ _ hname
      have := (reduceName_injective hname).1
      omega
    | succ m =>
      have := h.parts r hr m kvs' hm
      rwa [show i + 1 + m = i + (m + 1) by omega] at this
  others := by
    intro name hname
    rw [List.length_cons] at hname
    rw [h.others name fun m r hle hlt hr => hname m r (by omega) (by omega) hr,
      FileOp.applyAll_ne]
    intro op hop heq
    obtain ⟨r, hr, htarget⟩ := target_mapOps hsplit hop
    exact hname i r le_rfl (by omega) hr (heq.trans htarget)

theorem mapPhase_eq (hfiles : ∀ file ∈ files, ∃ data, fs file = some data)
    (hsplit : ∀ kvs ∈ emitted json jobName nReduce mapF i files fs, Splits nReduce kvs) :
    ∃ fs', mapPhase json jobName nReduce mapF i files fs = some ((), fs') ∧
      (emitted json jobName nReduce mapF i files fs).length = files.length ∧
      Mapped json jobName nReduce fs i (emitted json jobName nReduce mapF i files fs) fs' := by
  induction files generalizing i fs with
  | nil =>
    refine ⟨fs, rfl, rfl, ⟨?_, fun _ _ => rfl⟩⟩
    intro r _ m kvs hm
    cases hm
  | cons file files ih =>
    rw [emitted] at hsplit ⊢
    have hhead := hsplit _ List.mem_cons_self
    obtain ⟨-, hmap⟩ | ⟨hno, -⟩ := doMap_cases json jobName nReduce mapF i
      (hfiles file List.mem_cons_self)
    · rw [hmap] at hsplit ⊢
      dsimp only at hsplit ⊢
      have hfiles' : ∀ f ∈ files, ∃ data, FileOp.applyAll fs (mapOps json jobName i nReduce
          (mapF file ((fs file).getD []))) f = some data := by
        intro f hf
        rw [← Option.isSome_iff_exists]
        apply FileOp.applyAll_isSome
        exact Option.isSome_iff_exists.mpr (hfiles f (List.mem_cons_of_mem _ hf))
      obtain ⟨fs', hrun, hlen, hmapped⟩ := ih hfiles' fun kvs hkvs =>
        hsplit kvs (List.mem_cons_of_mem _ hkvs)
      refine ⟨fs', ?_, by rw [List.length_cons, List.length_cons, hlen], hmapped.cons hhead⟩
      change (doMap json jobName i file nReduce mapF fs).bind _ = _
      rw [hmap]
      exact hrun
    · exact absurd hhead hno

theorem mapPhase_panics (hfiles : ∀ file ∈ files, ∃ data, fs file = some data)
    (hsplit : ¬ ∀ kvs ∈ emitted json jobName nReduce mapF i files fs, Splits nReduce kvs) :
    mapPhase json jobName nReduce mapF i files fs = none := by
  induction files generalizing i fs with
  | nil => exact absurd (fun kvs hkvs => by cases hkvs) hsplit
  | cons file files ih =>
    rw [emitted] at hsplit
    change (doMap json jobName i file nReduce mapF fs).bind _ = _
    obtain ⟨hhead, hmap⟩ | ⟨-, hmap⟩ := doMap_cases json jobName nReduce mapF i
      (hfiles file List.mem_cons_self)
    · rw [hmap] at hsplit ⊢
      apply ih
      · intro f hf
        rw [← Option.isSome_iff_exists]
        apply FileOp.applyAll_isSome
        exact Option.isSome_iff_exists.mpr (hfiles f (List.mem_cons_of_mem _ hf))
      · intro hall
        apply hsplit
        intro kvs hkvs
        rcases List.mem_cons.mp hkvs with rfl | hkvs
        · exact hhead
        · exact hall kvs hkvs
    · rw [hmap]
      rfl

theorem mem_emitted {kvs : List KeyValue}
    (h : kvs ∈ emitted json jobName nReduce mapF i files fs) :
    ∃ file data, kvs = mapF file data := by
  induction files generalizing i fs with
  | nil => cases h
  | cons file files ih =>
    rw [emitted] at h
    rcases List.mem_cons.mp h with rfl | h
    · exact ⟨file, _, rfl⟩
    · split at h
      · cases h
      · exact ih h

/-- Where no input has the name of an intermediate file, the calls see the files as they
were before the job. -/
theorem emitted_eq_map (hfiles : ∀ file ∈ files, ∃ data, fs file = some data)
    (hnames : ∀ file ∈ files, ∀ m r, file ≠ reduceName jobName m r)
    (hsplit : ∀ kvs ∈ emitted json jobName nReduce mapF i files fs, Splits nReduce kvs) :
    emitted json jobName nReduce mapF i files fs =
      files.map fun file => mapF file ((fs file).getD []) := by
  induction files generalizing i fs with
  | nil => rfl
  | cons file files ih =>
    rw [emitted] at hsplit ⊢
    have hhead := hsplit _ List.mem_cons_self
    obtain ⟨-, hmap⟩ | ⟨hno, -⟩ := doMap_cases json jobName nReduce mapF i
      (hfiles file List.mem_cons_self)
    · rw [hmap] at hsplit ⊢
      have hkeep : ∀ f ∈ files, FileOp.applyAll fs (mapOps json jobName i nReduce
          (mapF file ((fs file).getD []))) f = fs f := by
        intro f hf
        apply FileOp.applyAll_ne
        intro op hop hname
        obtain ⟨r, -, htarget⟩ := target_mapOps hhead hop
        exact hnames f (List.mem_cons_of_mem _ hf) i r (hname.trans htarget)
      dsimp only at hsplit ⊢
      rw [List.map_cons, ih]
      · congr 1
        apply List.map_congr_left
        intro f hf
        rw [hkeep f hf]
      · intro f hf
        rw [hkeep f hf]
        exact hfiles f (List.mem_cons_of_mem _ hf)
      · exact fun f hf => hnames f (List.mem_cons_of_mem _ hf)
      · exact fun kvs hkvs => hsplit kvs (List.mem_cons_of_mem _ hkvs)
    · exact absurd hhead hno

/-! ## The reduce phase -/

section Reduce

variable {pairs : List (List KeyValue)}

/-- The outputs of a reduce task. -/
def outputsOf (reduceF : ReduceF) (nReduce : ℕ) (pairs : List (List KeyValue)) (r : ℕ) :
    List KeyValue := reduceOutputs reduceF (partKVs nReduce r pairs)

theorem reducePhase_eq (reduceF : ReduceF) (hjson : json.RoundTrips)
    (hvalid : ∀ kvs ∈ pairs, ∀ kv ∈ kvs, kv.Valid) (left i : ℕ) (fs : FileSystem)
    (hparts : ∀ r, i ≤ r → r < i + left → HoldsParts json jobName nReduce r fs 0 pairs) :
    ∃ fs', reducePhase json jobName pairs.length reduceF left i fs = some ((), fs') ∧
      (∀ r, i ≤ r → r < i + left → fs' (mergeName jobName r) =
        some ((outputsOf reduceF nReduce pairs r).flatMap json.encode)) ∧
      ∀ name, (∀ r, i ≤ r → r < i + left → name ≠ mergeName jobName r) → fs' name = fs name := by
  induction left generalizing i fs with
  | zero => exact ⟨fs, rfl, fun r hle hlt => by omega, fun _ _ => rfl⟩
  | succ left ih =>
    have hreduce := doReduce_eq reduceF hjson hvalid (hparts i le_rfl (by omega))
    have hkeep : ∀ name, name ≠ mergeName jobName i → FileOp.applyAll fs
        (reduceOps json jobName i (outputsOf reduceF nReduce pairs i)) name = fs name := by
      intro name hname
      apply FileOp.applyAll_ne
      intro op hop
      rwa [target_reduceOps hop]
    obtain ⟨fs', hrun, houts, hothers⟩ := ih (i + 1)
      (FileOp.applyAll fs (reduceOps json jobName i (outputsOf reduceF nReduce pairs i))) (by
        intro r hle hlt m kvs hm
        rw [hkeep _ (reduceName_ne_mergeName _ _ _ _)]
        exact hparts r (by omega) (by omega) m kvs hm)
    refine ⟨fs', ?_, ?_, ?_⟩
    · change (doReduce json jobName i pairs.length reduceF fs).bind _ = _
      rw [hreduce]
      exact hrun
    · intro r hle hlt
      rcases Nat.eq_or_lt_of_le hle with rfl | hlt'
      · rw [hothers _ fun r' hr' _ hname => by
          have := mergeName_injective hname
          omega]
        exact applyAll_reduceOps _ _
      · exact houts r hlt' (by omega)
    · intro name hname
      rw [hothers name fun r hle hlt => hname r (by omega) (by omega)]
      exact hkeep name (hname i le_rfl (by omega))

/-! ## The merge -/

/-- The outputs of a list of pairs, by key: the last one counts. -/
def outputsMap (kvs : List KeyValue) (g : Outputs) : Outputs :=
  kvs.foldl (fun g kv => g.insert kv.key kv.value) g

/-- Where the value of a pair is a function of its key, so is what the map has. -/
theorem lookup_outputsMap {F : GoString → GoString} (kvs : List KeyValue)
    (h : ∀ kv ∈ kvs, kv.value = F kv.key) (g : Outputs) (key : GoString) :
    (outputsMap kvs g).lookup key =
      if key ∈ kvs.map KeyValue.key then some (F key) else g.lookup key := by
  induction kvs generalizing g with
  | nil => rfl
  | cons kv kvs ih =>
    rw [outputsMap, List.foldl_cons]
    change (outputsMap kvs (g.insert kv.key kv.value)).lookup key = _
    rw [ih (fun kv' hkv' => h kv' (List.mem_cons_of_mem _ hkv')), List.map_cons]
    by_cases hmem : key ∈ kvs.map KeyValue.key
    · rw [if_pos hmem, if_pos (List.mem_cons_of_mem _ hmem)]
    · rw [if_neg hmem]
      by_cases hkey : key = kv.key
      · rw [hkey, if_pos List.mem_cons_self, AList.lookup_insert, h kv List.mem_cons_self]
      · have hnot : key ∉ kv.key :: kvs.map KeyValue.key := by
          rw [List.mem_cons]
          tauto
        rw [if_neg hnot, AList.lookup_insert_ne hkey]

theorem decodeOutputs_eq (hjson : json.RoundTrips) {kvs : List KeyValue}
    (h : ∀ kv ∈ kvs, kv.Valid) {fuel : ℕ} (hfuel : kvs.length < fuel) (g : Outputs) :
    decodeOutputs json fuel (kvs.flatMap json.encode) g = some (outputsMap kvs g) := by
  induction kvs generalizing fuel g with
  | nil =>
    obtain ⟨fuel, rfl⟩ := Nat.exists_eq_succ_of_ne_zero (Nat.ne_of_gt hfuel)
    rw [List.flatMap_nil, decodeOutputs, hjson.decode_nil]
    rfl
  | cons kv kvs ih =>
    rw [List.length_cons] at hfuel
    obtain ⟨fuel, rfl⟩ := Nat.exists_eq_succ_of_ne_zero (Nat.ne_zero_of_lt hfuel)
    rw [List.flatMap_cons, decodeOutputs, hjson.decode_encode _ _ (h kv List.mem_cons_self)]
    exact ih (fun kv' hkv' => h kv' (List.mem_cons_of_mem _ hkv')) (by omega) _

theorem readOutputs_eq (hjson : json.RoundTrips) {outs : ℕ → List KeyValue} (left i : ℕ)
    (fs : FileSystem) (hvalid : ∀ r, ∀ kv ∈ outs r, kv.Valid)
    (houts : ∀ r, i ≤ r → r < i + left →
      fs (mergeName jobName r) = some ((outs r).flatMap json.encode)) (g : Outputs) :
    readOutputs json jobName left i g fs =
      some (outputsMap ((List.range' i left).flatMap outs) g, fs) := by
  induction left generalizing i g with
  | zero => rfl
  | succ left ih =>
    have hdecode := decodeOutputs_eq hjson (hvalid i)
      (Nat.lt_succ_of_le (hjson.length_le (hvalid i))) g
    change ((fs (mergeName jobName i)).map (·, fs)).bind _ = _
    rw [houts i le_rfl (by omega), Option.map_some, Option.bind_some]
    dsimp only
    rw [hdecode]
    dsimp only
    rw [ih (i + 1) fun r hle hlt => houts r (by omega) (by omega), List.range'_succ,
      List.flatMap_cons, outputsMap, outputsMap, outputsMap, List.foldl_append]

theorem writeLines_eq (g : Outputs) (keys : List GoString) (fs : FileSystem) :
    writeLines jobName g keys fs = some ((), FileOp.applyAll fs
      (keys.map fun key => .write (resultName jobName)
        (outputLine ⟨key, (g.lookup key).getD []⟩))) := by
  induction keys generalizing fs with
  | nil => rfl
  | cons key keys ih =>
    rw [List.map_cons, FileOp.applyAll_cons]
    exact ih _

theorem merge_eq (hjson : json.RoundTrips) {outs : ℕ → List KeyValue} (fs : FileSystem)
    (hvalid : ∀ r, ∀ kv ∈ outs r, kv.Valid)
    (houts : ∀ r < nReduce, fs (mergeName jobName r) = some ((outs r).flatMap json.encode)) :
    ∃ fs', merge json jobName nReduce fs = some ((), fs') ∧ fs' (resultName jobName) =
      some (((sortStrings (outputsMap ((List.range nReduce).flatMap outs) ∅).keys).map fun key =>
        ⟨key, ((outputsMap ((List.range nReduce).flatMap outs) ∅).lookup key).getD []⟩).flatMap
          outputLine) := by
  have hread := readOutputs_eq hjson nReduce 0 fs hvalid
    (fun r _ hlt => houts r (by omega)) ∅
  rw [← List.range_eq_range'] at hread
  generalize outputsMap ((List.range nReduce).flatMap outs) ∅ = g at hread ⊢
  have hcreated : FileOp.apply fs (.create (resultName jobName)) (resultName jobName) = some [] :=
    FileOp.apply_self _
  refine ⟨FileOp.applyAll (FileOp.apply fs (.create (resultName jobName))) ((sortStrings g.keys).map
    fun key => .write (resultName jobName) (outputLine ⟨key, (g.lookup key).getD []⟩)), ?_, ?_⟩
  · change (readOutputs json jobName nReduce 0 ∅ fs).bind _ = _
    rw [hread]
    exact writeLines_eq g _ _
  · rw [FileOp.applyAll_writes _ _ _ hcreated, List.flatMap_map]
    simp

end Reduce

/-! ## The whole job -/

/-- `out` lists each key of `kvs` once, ascending, with what `reduceF` makes of all its
values. -/
structure IsOutput (reduceF : ReduceF) (kvs out : List KeyValue) : Prop where
  ascending : (out.map KeyValue.key).Pairwise (· < ·)
  keys : ∀ key, key ∈ out.map KeyValue.key ↔ key ∈ kvs.map KeyValue.key
  values : ∀ kv ∈ out, kv.value = reduceF kv.key (valuesOf kv.key kvs)

theorem pairwise_sortStrings {keys : List GoString} (h : keys.Nodup) :
    (sortStrings keys).Pairwise (· < ·) := by
  have hsorted := List.pairwise_insertionSort (· ≤ ·) keys
  have hnodup := (List.perm_insertionSort (· ≤ ·) keys).nodup_iff.mpr h
  exact hsorted.imp₂ (fun _ _ hle hne => Std.lt_of_le_of_ne hle hne) hnodup

/-- A map whose keys are those of `kvs`, and whose values are made from theirs. -/
theorem isOutput_sorted {kvs : List KeyValue} {g : Outputs}
    (h : ∀ key, g.lookup key = if key ∈ kvs.map KeyValue.key
      then some (reduceF key (valuesOf key kvs)) else none) :
    IsOutput reduceF kvs ((sortStrings g.keys).map fun key => ⟨key, (g.lookup key).getD []⟩) := by
  have hkeys : ∀ key, key ∈ g.keys ↔ key ∈ kvs.map KeyValue.key := by
    intro key
    rw [← AList.mem_keys, ← AList.lookup_isSome, h]
    split_ifs with hmem
    · exact iff_of_true rfl hmem
    · exact iff_of_false (by simp) hmem
  have hmap : (((sortStrings g.keys).map fun key =>
      (⟨key, (g.lookup key).getD []⟩ : KeyValue)).map KeyValue.key) = sortStrings g.keys := by
    rw [List.map_map]
    exact List.map_id _
  refine ⟨?_, ?_, ?_⟩
  · rw [hmap]
    exact pairwise_sortStrings g.keys_nodup
  · intro key
    rw [hmap, mem_sortStrings, hkeys]
  · intro kv hkv
    obtain ⟨key, hkey, rfl⟩ := List.mem_map.mp hkv
    rw [mem_sortStrings, hkeys] at hkey
    dsimp only
    rw [h, if_pos hkey, Option.getD_some]

section Outputs

variable {pairs : List (List KeyValue)}

/-- All the pairs of a key go to one reduce task. -/
theorem valuesOf_partKVs {key : GoString} {r : ℕ} (hr : part nReduce key = r) :
    valuesOf key (partKVs nReduce r pairs) = valuesOf key pairs.flatten := by
  rw [valuesOf, valuesOf, partKVs, List.filter_filter]
  congr 1
  apply List.filter_congr
  intro kv _
  by_cases hkey : kv.key = key
  · simp [hkey, hr]
  · simp [hkey]

theorem mem_outputsOf {r : ℕ} {kv : KeyValue} (h : kv ∈ outputsOf reduceF nReduce pairs r) :
    kv.key ∈ pairs.flatten.map KeyValue.key ∧ part nReduce kv.key = r ∧
      kv.value = reduceF kv.key (valuesOf kv.key pairs.flatten) := by
  rw [outputsOf, reduceOutputs, List.mem_map] at h
  obtain ⟨key, hkey, rfl⟩ := h
  rw [mem_sortStrings, mem_groupsOf, List.mem_map] at hkey
  obtain ⟨kv, hkv, rfl⟩ := hkey
  rw [partKVs, List.mem_filter] at hkv
  have hr : part nReduce kv.key = r := of_decide_eq_true hkv.2
  exact ⟨List.mem_map.mpr ⟨kv, hkv.1, rfl⟩, hr, by rw [valuesOf_partKVs hr]⟩

theorem key_mem_outputsOf (reduceF : ReduceF) {key : GoString}
    (h : key ∈ pairs.flatten.map KeyValue.key) :
    key ∈ (outputsOf reduceF nReduce pairs (part nReduce key)).map KeyValue.key := by
  obtain ⟨kv, hkv, rfl⟩ := List.mem_map.mp h
  rw [outputsOf, reduceOutputs, List.map_map]
  refine List.mem_map.mpr ⟨kv.key, ?_, rfl⟩
  rw [mem_sortStrings, mem_groupsOf]
  apply List.mem_map_of_mem
  rw [partKVs, List.mem_filter]
  exact ⟨hkv, decide_eq_true rfl⟩

theorem lookup_outputs (hsplit : ∀ kvs ∈ pairs, Splits nReduce kvs) (key : GoString) :
    (outputsMap ((List.range nReduce).flatMap (outputsOf reduceF nReduce pairs)) ∅).lookup key =
      if key ∈ pairs.flatten.map KeyValue.key
      then some (reduceF key (valuesOf key pairs.flatten)) else none := by
  rw [lookup_outputsMap (F := fun key => reduceF key (valuesOf key pairs.flatten))]
  · have hiff : key ∈ ((List.range nReduce).flatMap (outputsOf reduceF nReduce pairs)).map
        KeyValue.key ↔ key ∈ pairs.flatten.map KeyValue.key := by
      constructor
      · intro h
        obtain ⟨kv, hkv, rfl⟩ := List.mem_map.mp h
        obtain ⟨r, -, hr⟩ := List.mem_flatMap.mp hkv
        exact (mem_outputsOf hr).1
      · intro h
        obtain ⟨kv, hkv, hkey⟩ := List.mem_map.mp (key_mem_outputsOf reduceF h)
        refine List.mem_map.mpr ⟨kv, List.mem_flatMap.mpr ⟨part nReduce key, ?_, hkv⟩, hkey⟩
        -- some call emitted the key, so the pairs of that call were split
        obtain ⟨kv', hkv', -⟩ := List.mem_map.mp h
        obtain ⟨kvs, hkvs, hmem⟩ := List.mem_flatten.mp hkv'
        exact List.mem_range.mpr (part_lt
          ((hsplit kvs hkvs).resolve_right (List.ne_nil_of_mem hmem)) key)
    rw [if_congr hiff rfl rfl]
    rfl
  · intro kv hkv
    obtain ⟨r, -, hr⟩ := List.mem_flatMap.mp hkv
    exact (mem_outputsOf hr).2.2

end Outputs

/-- The job ends, and its result file lists every key that was emitted. -/
def MeetsMeaning (json : Json) (jobName : GoString) (files : List GoString) (nReduce : ℕ)
    (mapF : MapF) (reduceF : ReduceF) (fs : FileSystem) : Prop :=
  ∃ fs' out, sequential json jobName files nReduce mapF reduceF fs = some ((), fs') ∧
    fs' (resultName jobName) = some (out.flatMap outputLine) ∧
    IsOutput reduceF (emitted json jobName nReduce mapF 0 files fs).flatten out

theorem sequential_meets (hjson : json.RoundTrips)
    (hmapF : ∀ file data, ∀ kv ∈ mapF file data, kv.Valid)
    (hreduceF : ∀ key vs, ValidUTF8 key → (∀ v ∈ vs, ValidUTF8 v) → ValidUTF8 (reduceF key vs))
    (hfiles : ∀ file ∈ files, ∃ data, fs file = some data)
    (hsplit : ∀ kvs ∈ emitted json jobName nReduce mapF 0 files fs, Splits nReduce kvs) :
    MeetsMeaning json jobName files nReduce mapF reduceF fs := by
  obtain ⟨fs₁, hmap, hlen, hmapped⟩ := mapPhase_eq hfiles hsplit
  have hpairs : ∀ kvs ∈ emitted json jobName nReduce mapF 0 files fs, ∀ kv ∈ kvs, kv.Valid := by
    intro kvs hkvs
    obtain ⟨file, data, rfl⟩ := mem_emitted hkvs
    exact hmapF file data
  rw [MeetsMeaning]
  generalize emitted json jobName nReduce mapF 0 files fs = pairs at *
  obtain ⟨fs₂, hreduce, houts, -⟩ := reducePhase_eq reduceF hjson hpairs nReduce 0 fs₁
    fun r _ hlt => hmapped.parts r (by omega)
  have hflat : ∀ kv ∈ pairs.flatten, kv.Valid := by
    intro kv hkv
    obtain ⟨kvs, hkvs, hmem⟩ := List.mem_flatten.mp hkv
    exact hpairs kvs hkvs kv hmem
  have hvalid : ∀ r, ∀ kv ∈ outputsOf reduceF nReduce pairs r, kv.Valid := by
    intro r kv hkv
    obtain ⟨hkey, -, hvalue⟩ := mem_outputsOf hkv
    obtain ⟨kv', hkv', heq⟩ := List.mem_map.mp hkey
    have hvk : ValidUTF8 kv.key := heq ▸ (hflat kv' hkv').1
    refine ⟨hvk, hvalue ▸ hreduceF _ _ hvk ?_⟩
    intro v hv
    obtain ⟨kv'', hkv'', rfl⟩ := List.mem_map.mp hv
    exact (hflat kv'' (List.mem_of_mem_filter hkv'')).2
  have houts' : ∀ r < nReduce, fs₂ (mergeName jobName r) =
      some ((outputsOf reduceF nReduce pairs r).flatMap json.encode) :=
    fun r hr => houts r (Nat.zero_le _) (by omega)
  obtain ⟨fs₃, hmerge, hresult⟩ := merge_eq hjson fs₂ hvalid houts'
  refine ⟨fs₃, _, ?_, hresult, isOutput_sorted (lookup_outputs hsplit)⟩
  change (mapPhase json jobName nReduce mapF 0 files fs).bind _ = _
  rw [hmap]
  change (reducePhase json jobName files.length reduceF nReduce 0 fs₁).bind _ = _
  rw [← hlen, hreduce]
  exact hmerge

theorem not_meetsMeaning (hfiles : ∀ file ∈ files, ∃ data, fs file = some data)
    (hsplit : ¬ ∀ kvs ∈ emitted json jobName nReduce mapF 0 files fs, Splits nReduce kvs) :
    ¬ MeetsMeaning json jobName files nReduce mapF reduceF fs := by
  rintro ⟨fs', out, hrun, -⟩
  have hmap : (mapPhase json jobName nReduce mapF 0 files fs).bind (fun p => StateT.run (do
      reducePhase json jobName files.length reduceF nReduce 0
      merge json jobName nReduce) p.2) = some ((), fs') := hrun
  rw [mapPhase_panics hfiles hsplit] at hmap
  cases hmap

end Phases

/-! ## A job of one file -/

/-- A string between quotation marks, which are themselves escaped inside. -/
def quote (s : GoString) : List UInt8 :=
  s.flatMap (fun b => if b = 34 ∨ b = 92 then [92, b] else [b]) ++ [34]

/-- Read up to the closing quotation mark; `escaped` says whether the last byte was a
backslash. -/
def unquote (escaped : Bool) : List UInt8 → Option (GoString × List UInt8)
  | [] => none
  | b :: rest =>
    if escaped then
      (unquote false rest).map fun p => (b :: p.1, p.2)
    else if b = 34 then
      some ([], rest)
    else if b = 92 then
      unquote true rest
    else
      (unquote false rest).map fun p => (b :: p.1, p.2)

/-- Take a fixed text off a stream. -/
def expect (text : List UInt8) (stream : List UInt8) : Option (List UInt8) :=
  if stream.take text.length = text then some (stream.drop text.length) else none

/-- The text in front of the key, of the value and of the end of the line. -/
def beforeKey : List UInt8 := "\x7b\"Key\":\"".toUTF8.toList

def beforeValue : List UInt8 := ",\"Value\":\"".toUTF8.toList

def afterValue : List UInt8 := "\x7d\n".toUTF8.toList

/-- JSON lines for strings without control characters. -/
def plainJson : Json where
  encode kv := beforeKey ++ (quote kv.key ++ (beforeValue ++ (quote kv.value ++ afterValue)))
  more stream := stream ≠ []
  decode stream := do
    let stream ← expect beforeKey stream
    let (key, stream) ← unquote false stream
    let stream ← expect beforeValue stream
    let (value, stream) ← unquote false stream
    let stream ← expect afterValue stream
    return (⟨key, value⟩, stream)

theorem expect_append (text rest : List UInt8) : expect text (text ++ rest) = some rest := by
  rw [expect, List.take_left, if_pos rfl, List.drop_left]

theorem unquote_quote (s rest : List UInt8) :
    unquote false (quote s ++ rest) = some (s, rest) := by
  induction s with
  | nil => rfl
  | cons b s ih =>
    have hquote : quote (b :: s) = (if b = 34 ∨ b = 92 then [92, b] else [b]) ++ quote s := by
      rw [quote, List.flatMap_cons, List.append_assoc, quote]
    rw [hquote]
    by_cases hb : b = 34 ∨ b = 92
    · rw [if_pos hb]
      change unquote false (92 :: b :: (quote s ++ rest)) = _
      rw [unquote, if_neg (by decide), if_neg (by decide), if_pos rfl, unquote, if_pos rfl, ih]
      rfl
    · rw [not_or] at hb
      rw [if_neg (by tauto)]
      change unquote false (b :: (quote s ++ rest)) = _
      rw [unquote, if_neg (by decide), if_neg hb.1, if_neg hb.2, ih]
      rfl

theorem plainJson_roundTrips : plainJson.RoundTrips where
  more_nil := rfl
  decode_nil := by decide +kernel
  more_encode kv rest _ := by
    have hne : plainJson.encode kv ++ rest ≠ [] := by
      intro hnil
      have hkey : beforeKey ≠ [] := by decide +kernel
      exact hkey (List.append_eq_nil_iff.mp (List.append_eq_nil_iff.mp hnil).1).1
    exact decide_eq_true hne
  decode_encode kv rest _ := by
    have hstream : plainJson.encode kv ++ rest = beforeKey ++ (quote kv.key ++ (beforeValue ++
        (quote kv.value ++ (afterValue ++ rest)))) := by
      simp only [plainJson, List.append_assoc]
    rw [hstream]
    simp only [plainJson, expect_append, unquote_quote, Option.bind_eq_bind, Option.bind_some]
    rfl

/-- Emit the contents of a file of ASCII letters once. -/
def emitLetter : MapF := fun _ _ => [⟨[97], [98]⟩]

/-- The first value of a key. -/
def firstValue : ReduceF := fun _ vs => vs.headD []

/-- A file system with one empty file. -/
def oneFile : FileSystem := fun name => if name = [102] then some [] else none

theorem emitLetter_valid (file : GoString) (data : List UInt8) :
    ∀ kv ∈ emitLetter file data, kv.Valid := by
  intro kv hkv
  cases List.mem_singleton.mp hkv
  exact ⟨⟨"a", by decide +kernel⟩, ⟨"b", by decide +kernel⟩⟩

theorem firstValue_valid (key : GoString) (vs : List GoString) (_ : ValidUTF8 key)
    (h : ∀ v ∈ vs, ValidUTF8 v) : ValidUTF8 (firstValue key vs) := by
  cases vs with
  | nil =>
    have hempty : ([] : GoString) = "".toUTF8.toList := by decide +kernel
    exact ⟨"", hempty⟩
  | cons v vs => exact h v List.mem_cons_self

theorem oneFile_exists : ∀ file ∈ [[(102 : UInt8)]], ∃ data, oneFile file = some data := by
  intro file hfile
  cases List.mem_singleton.mp hfile
  exact ⟨[], rfl⟩

end Courses.MapReduce
