import Mathlib.Data.List.AList
import Mathlib.Data.List.Sort
import Mathlib.Data.Nat.Digits.Defs
import Mathlib.Tactic

/-!
# MapReduce jobs on a shared file system

`mapreduce/common_map.go`, `common_reduce.go` and `master_splitmerge.go`: a map task
splits what `mapF` emits over one intermediate file per reduce task, a reduce task
groups what it finds in its files by key, and the merge collects the outputs of the
reduce tasks in a single file.

Strings are sequences of bytes. A panic ends the program, so a computation over the
file system answers `none` there. The JSON package is a parameter: an encoder, and a
decoder that takes the next value off a stream.
-/
namespace Courses.MapReduce

/-- A Go string. -/
abbrev GoString := List UInt8

/-- The bytes of some text. -/
def ValidUTF8 (s : GoString) : Prop := ∃ text : String, s = text.toUTF8.toList

structure KeyValue where
  key : GoString
  value : GoString
  deriving Repr, DecidableEq

def KeyValue.Valid (kv : KeyValue) : Prop := ValidUTF8 kv.key ∧ ValidUTF8 kv.value

/-- `json.Encoder` and `json.Decoder` on values of type `KeyValue`. A decoder is what is
left of its stream; the blanks after a value go with the value. -/
structure Json where
  encode : KeyValue → List UInt8
  more : List UInt8 → Bool
  decode : List UInt8 → Option (KeyValue × List UInt8)

/-- What encoders wrote, a decoder gives back value by value, until the stream ends. -/
structure Json.RoundTrips (json : Json) : Prop where
  more_nil : json.more [] = false
  decode_nil : json.decode [] = none
  more_encode : ∀ kv rest, kv.Valid → json.more (json.encode kv ++ rest) = true
  decode_encode : ∀ kv rest, kv.Valid → json.decode (json.encode kv ++ rest) = some (kv, rest)

/-! ## The file system -/

abbrev FileSystem := GoString → Option (List UInt8)

/-- A call that changes one file. -/
inductive FileOp where
  | create (name : GoString)
  | write (name : GoString) (bytes : List UInt8)
  deriving Repr, DecidableEq

namespace FileOp

def target : FileOp → GoString
  | create name => name
  | write name _ => name

/-- The contents of the target after the call. -/
def contents (old : Option (List UInt8)) : FileOp → List UInt8
  | create _ => []
  | write _ bytes => old.getD [] ++ bytes

def apply (fs : FileSystem) (op : FileOp) : FileSystem :=
  Function.update fs op.target (some (op.contents (fs op.target)))

end FileOp

/-- A computation on the file system that may panic. -/
abbrev GoM := StateT FileSystem Option

def panic {α : Type} : GoM α := fun _ => none

/-- Read a whole file; a file that cannot be opened ends in a panic. -/
def readFile (name : GoString) : GoM (List UInt8) := fun fs => (fs name).map (·, fs)

def perform (op : FileOp) : GoM Unit := fun fs => some ((), op.apply fs)

/-! ## Names -/

/-- `strconv.Itoa` of a task number. -/
def itoa (n : ℕ) : GoString :=
  if n = 0 then [48] else (Nat.digits 10 n).reverse.map fun d => UInt8.ofNat (48 + d)

/-- `"mrtmp."`. -/
def tmpPrefix : GoString := [109, 114, 116, 109, 112, 46]

def reduceName (jobName : GoString) (mapTask reduceTask : ℕ) : GoString :=
  tmpPrefix ++ jobName ++ [45] ++ itoa mapTask ++ [45] ++ itoa reduceTask

/-- The middle of the name is `"-res-"`. -/
def mergeName (jobName : GoString) (reduceTask : ℕ) : GoString :=
  tmpPrefix ++ jobName ++ [45, 114, 101, 115, 45] ++ itoa reduceTask

/-- The file the merge creates. -/
def resultName (jobName : GoString) : GoString := tmpPrefix ++ jobName

/-! ## Map tasks -/

/-- FNV-1a on 32 bits. -/
def ihash (s : GoString) : UInt32 :=
  s.foldl (fun h b => (h ^^^ b.toUInt32) * 16777619) 2166136261

/-- A user-defined map function. -/
abbrev MapF := GoString → List UInt8 → List KeyValue

/-- A user-defined reduce function. -/
abbrev ReduceF := GoString → List GoString → GoString

section Tasks

variable (json : Json) (jobName : GoString)

/-- Create the files for reduce tasks `i` to `i + left - 1`. -/
def createFiles (mapTaskNumber : ℕ) : ℕ → ℕ → GoM Unit
  | 0, _ => return ()
  | left + 1, i => do
    perform (.create (reduceName jobName mapTaskNumber i))
    createFiles mapTaskNumber left (i + 1)

/-- The reduce task of a key. The number of tasks is cut to 32 bits first, and a
division by zero panics. -/
def partitionOf (nReduce : ℕ) (key : GoString) : Option ℕ :=
  if nReduce % 2 ^ 32 = 0 then none else some ((ihash key).toNat % (nReduce % 2 ^ 32))

/-- The loop over the pairs that `mapF` emitted. -/
def encodeAll (mapTaskNumber nReduce : ℕ) : List KeyValue → GoM Unit
  | [] => return ()
  | kv :: kvs => do
    match partitionOf nReduce kv.key with
    | none => panic
    | some r =>
      perform (.write (reduceName jobName mapTaskNumber r) (json.encode kv))
      encodeAll mapTaskNumber nReduce kvs

def doMap (mapTaskNumber : ℕ) (inFile : GoString) (nReduce : ℕ) (mapF : MapF) : GoM Unit := do
  let data ← readFile inFile
  let kvs := mapF inFile data
  createFiles jobName mapTaskNumber nReduce 0
  encodeAll json jobName mapTaskNumber nReduce kvs

/-! ## Reduce tasks -/

/-- The values seen so far, by key. -/
abbrev Groups := AList fun _ : GoString => List GoString

/-- One turn of the decoding loop: a new key gets an empty list first. -/
def Groups.add (kvs : Groups) (kv : KeyValue) : Groups :=
  let kvs := if kv.key ∈ kvs then kvs else kvs.insert kv.key []
  kvs.insert kv.key ((kvs.lookup kv.key).getD [] ++ [kv.value])

/-- Decode a stream into the groups. Each value takes a byte or more, so the length of
the stream bounds the loop; a value that cannot be decoded ends in a panic. -/
def decodeGroups : ℕ → List UInt8 → Groups → Option Groups
  | 0, _, _ => none
  | fuel + 1, stream, kvs =>
    if json.more stream then
      match json.decode stream with
      | none => none
      | some (kv, stream) => decodeGroups fuel stream (kvs.add kv)
    else
      some kvs

/-- The loop over the files of map tasks `i` to `i + left - 1`. -/
def readGroups (reduceTaskNumber : ℕ) : ℕ → ℕ → Groups → GoM Groups
  | 0, _, kvs => return kvs
  | left + 1, i, kvs => do
    let stream ← readFile (reduceName jobName i reduceTaskNumber)
    match decodeGroups json (stream.length + 1) stream kvs with
    | none => panic
    | some kvs => readGroups reduceTaskNumber left (i + 1) kvs

/-- `sort.Strings`: ascending, byte by byte. -/
def sortStrings (keys : List GoString) : List GoString := keys.insertionSort (· ≤ ·)

/-- The loop over the sorted keys. -/
def encodeGroups (reduceTaskNumber : ℕ) (reduceF : ReduceF) (kvs : Groups) :
    List GoString → GoM Unit
  | [] => return ()
  | key :: keys => do
    let kv : KeyValue := ⟨key, reduceF key ((kvs.lookup key).getD [])⟩
    perform (.write (mergeName jobName reduceTaskNumber) (json.encode kv))
    encodeGroups reduceTaskNumber reduceF kvs keys

def doReduce (reduceTaskNumber nMap : ℕ) (reduceF : ReduceF) : GoM Unit := do
  let kvs ← readGroups json jobName reduceTaskNumber nMap 0 ∅
  let keys := sortStrings kvs.keys
  perform (.create (mergeName jobName reduceTaskNumber))
  encodeGroups json jobName reduceTaskNumber reduceF kvs keys

/-! ## The merge -/

/-- The outputs seen so far, by key. -/
abbrev Outputs := AList fun _ : GoString => GoString

/-- Decode until the decoder fails. -/
def decodeOutputs : ℕ → List UInt8 → Outputs → Option Outputs
  | 0, _, _ => none
  | fuel + 1, stream, kvs =>
    match json.decode stream with
    | none => some kvs
    | some (kv, stream) => decodeOutputs fuel stream (kvs.insert kv.key kv.value)

/-- The loop over the outputs of reduce tasks `i` to `i + left - 1`. -/
def readOutputs : ℕ → ℕ → Outputs → GoM Outputs
  | 0, _, kvs => return kvs
  | left + 1, i, kvs => do
    let stream ← readFile (mergeName jobName i)
    match decodeOutputs json (stream.length + 1) stream kvs with
    | none => panic
    | some kvs => readOutputs left (i + 1) kvs

/-- `fmt.Fprintf(w, "%s: %s\n", ...)`. -/
def outputLine (kv : KeyValue) : List UInt8 := kv.key ++ [58, 32] ++ kv.value ++ [10]

/-- The loop over the sorted keys. -/
def writeLines (kvs : Outputs) : List GoString → GoM Unit
  | [] => return ()
  | key :: keys => do
    perform (.write (resultName jobName) (outputLine ⟨key, (kvs.lookup key).getD []⟩))
    writeLines kvs keys

def merge (nReduce : ℕ) : GoM Unit := do
  let kvs ← readOutputs json jobName nReduce 0 ∅
  let keys := sortStrings kvs.keys
  perform (.create (resultName jobName))
  writeLines jobName kvs keys

/-! ## A sequential job -/

/-- The map phase of `Sequential`, from task `i` on. -/
def mapPhase (nReduce : ℕ) (mapF : MapF) : ℕ → List GoString → GoM Unit
  | _, [] => return ()
  | i, file :: files => do
    doMap json jobName i file nReduce mapF
    mapPhase nReduce mapF (i + 1) files

/-- The reduce phase of `Sequential`, for tasks `i` to `i + left - 1`. -/
def reducePhase (nMap : ℕ) (reduceF : ReduceF) : ℕ → ℕ → GoM Unit
  | 0, _ => return ()
  | left + 1, i => do
    doReduce json jobName i nMap reduceF
    reducePhase nMap reduceF left (i + 1)

/-- The file system part of `run` with the schedule of `Sequential`. -/
def sequential (files : List GoString) (nReduce : ℕ) (mapF : MapF) (reduceF : ReduceF) :
    GoM Unit := do
  mapPhase json jobName nReduce mapF 0 files
  reducePhase json jobName files.length reduceF nReduce 0
  merge json jobName nReduce

end Tasks
end Courses.MapReduce
