import Courses.SearchEngine.LinkedList

/-!
# The chained hash table

`hw1/HashTable.c`: an array of chains indexed by `key % num_buckets`, which grows
nine-fold inside an insert once it holds three elements per bucket. The two
functions `InsertHashTable` and `ResizeHashtable` call each other; the fuel of
`insertHashTable` bounds that nesting.

Memory that is given back has no effect on later calls, so of `FreeHashTable`
only the assertions it makes on the way remain.
-/
namespace Courses.SearchEngine

open Courses.Lib Courses.Lib.AllocM

/-- `HTKey_t`. -/
abbrev HTKey := UInt64

structure HTKeyValue (V : Type) where
  key : HTKey
  value : V
  deriving Repr, DecidableEq

structure HashTable (V : Type) where
  numBuckets : HWSize
  numElements : HWSize
  buckets : List (LinkedList (HTKeyValue V))

/-- An iterator over a table; `bucketIt` walks the chain of bucket `bucketNum`. -/
structure HTIter where
  isValid : Bool
  bucketNum : HWSize
  bucketIt : Option LLIter
  deriving Repr, DecidableEq

/-- What a call returns, and what it wrote through its `HTKeyValue *` argument. -/
structure Answer (V : Type) where
  ret : ℤ
  keyvalue : Option (HTKeyValue V)
  deriving Repr, DecidableEq

variable {V : Type}

/-! ## Allocation and release -/

/-- The loop that allocates the chains; it gives up at the first failure. -/
def allocateBuckets : ℕ → AllocM (Option (List (LinkedList (HTKeyValue V))))
  | 0 => pure (some [])
  | n + 1 => do
    match ← allocateLinkedList with
    | none => return none
    | some chain =>
      match ← allocateBuckets n with
      | none => return none
      | some chains => return some (chain :: chains)

def allocateHashTable (numBuckets : HWSize) : AllocM (Option (HashTable V)) := do
  if numBuckets = 0 then
    return none
  else if ← malloc then
    if ← malloc then
      match ← allocateBuckets numBuckets.toNat with
      | none => return none
      | some buckets => return some { numBuckets, numElements := 0, buckets }
    else
      return none
  else
    return none

/-- Pop a chain empty. -/
def drainChain : ℕ → LinkedList (HTKeyValue V) → AllocM Unit
  | 0, _ => halt .fuel
  | fuel + 1, bl => do
    if numElementsInLinkedList bl > 0 then
      let (nextKV, bl) ← popLinkedList bl
      let _ ← verifySome nextKV
      drainChain fuel bl
    else
      return ()

def freeBuckets : List (LinkedList (HTKeyValue V)) → AllocM Unit
  | [] => pure ()
  | bl :: bls => do
    drainChain (bl.numElements.toNat + 1) bl
    freeBuckets bls

def freeHashTable (table : HashTable V) : AllocM Unit :=
  freeBuckets table.buckets

def numElementsInHashTable (table : HashTable V) : HWSize := table.numElements

/-! ## Finding a key -/

namespace HashTable

/-- Read `buckets[i]`. -/
def bucket (ht : HashTable V) (i : HWSize) : AllocM (LinkedList (HTKeyValue V)) :=
  demand ht.buckets[i.toNat]?

/-- The chain of bucket `i` after one of its calls. -/
def setBucket (ht : HashTable V) (i : HWSize) (chain : LinkedList (HTKeyValue V)) :
    HashTable V :=
  { ht with buckets := ht.buckets.set i.toNat chain }

end HashTable

/-- `key % ht->num_buckets`, a fault where there are no buckets. -/
def hashKeyToBucketNum (ht : HashTable V) (key : HTKey) : AllocM HWSize :=
  if ht.numBuckets = 0 then halt .fault
  else pure (key % ht.numBuckets.toUInt64).toUInt32

/-- The loop over a chain, comparing keys. -/
def findKVLoop (list : LinkedList (HTKeyValue V)) (key : HTKey) :
    ℕ → LLIter → AllocM (Option LLIter)
  | 0, _ => halt .fuel
  | fuel + 1, iter => do
    let payload ← llIteratorGetPayload list iter
    if payload.key = key then
      return some iter
    else
      let (more, iter) ← llIteratorNext list iter
      if more then findKVLoop list key fuel iter else return none

/-- An iterator at the entry for `key`, or NULL. Every call made on a NULL iterator
asserts that it is not one, hence `verifySome`. -/
def findKVInHashTable (list : LinkedList (HTKeyValue V)) (key : HTKey) :
    AllocM (Option LLIter) := do
  if numElementsInLinkedList list = 0 then
    return none
  else
    let iter ← verifySome (← llMakeIterator list 0)
    findKVLoop list key list.numElements.toNat iter

def lookupHashTable (table : HashTable V) (key : HTKey) : AllocM (Answer V) := do
  let insertbucket ← hashKeyToBucketNum table key
  let insertchain ← table.bucket insertbucket
  match ← findKVInHashTable insertchain key with
  | none => return ⟨0, none⟩
  | some location =>
    let payload ← llIteratorGetPayload insertchain location
    return ⟨1, some payload⟩

def removeFromHashTable (table : HashTable V) (key : HTKey) :
    AllocM (Answer V × HashTable V) := do
  let insertbucket ← hashKeyToBucketNum table key
  let insertchain ← table.bucket insertbucket
  match ← findKVInHashTable insertchain key with
  | none => return (⟨0, none⟩, table)
  | some location =>
    let payload ← llIteratorGetPayload insertchain location
    let (_, _, insertchain, _) ← llIteratorDelete insertchain location
    return (⟨1, some payload⟩,
      { table.setBucket insertbucket insertchain with numElements := table.numElements - 1 })

/-! ## Iterators -/

/-- The first non-empty bucket from `i` on, or the end of the array. -/
def scanBuckets (ht : HashTable V) : ℕ → HWSize → AllocM HWSize
  | 0, _ => halt .fuel
  | fuel + 1, i => do
    if i < ht.numBuckets then
      let chain ← ht.bucket i
      if numElementsInLinkedList chain ≠ 0 then return i else scanBuckets ht fuel (i + 1)
    else
      return i

def hashTableMakeIterator (table : HashTable V) : AllocM (Option HTIter) := do
  if ← malloc then
    if table.numElements = 0 then
      return some { isValid := false, bucketNum := 0, bucketIt := none }
    else
      let i ← scanBuckets table (table.numBuckets.toNat + 1) 0
      verify (i < table.numBuckets)
      let chain ← table.bucket i
      match ← llMakeIterator chain 0 with
      | none => return none
      | some it => return some { isValid := true, bucketNum := i, bucketIt := some it }
  else
    return none

def htIteratorNext (ht : HashTable V) (iter : HTIter) : AllocM (ℤ × HTIter) := do
  if !iter.isValid then
    return (0, iter)
  else
    let it ← verifySome iter.bucketIt
    let chain ← ht.bucket iter.bucketNum
    if ← llIteratorHasNext chain it then
      let (_, it) ← llIteratorNext chain it
      return (1, { iter with bucketIt := some it })
    else
      let b ← scanBuckets ht (ht.numBuckets.toNat + 1) (iter.bucketNum + 1)
      if b < ht.numBuckets then
        let chain ← ht.bucket b
        let it ← llMakeIterator chain 0
        return (1, { iter with bucketNum := b, bucketIt := it })
      else
        return (0, { iter with isValid := false, bucketNum := b })

def htIteratorPastEnd (iter : HTIter) : Bool :=
  !iter.isValid || iter.bucketIt.isNone

/-- The entry the iterator is at; `none` stands for the return value 0. -/
def htIteratorGet (ht : HashTable V) (iter : HTIter) : AllocM (Option (HTKeyValue V)) := do
  if !iter.isValid then
    return none
  else
    let it ← verifySome iter.bucketIt
    let chain ← ht.bucket iter.bucketNum
    let payload ← llIteratorGetPayload chain it
    return some payload

/-! ## Insertion and growth -/

/-- The loop of `ResizeHashtable` that copies what `it` has left into `newht`. The
answer says whether every insert went well. -/
def rehash (insert : HashTable V → HTKeyValue V → AllocM (Answer V × HashTable V))
    (ht : HashTable V) : ℕ → HTIter → HashTable V → AllocM (Bool × HashTable V)
  | 0, _, _ => halt .fuel
  | fuel + 1, it, newht => do
    if htIteratorPastEnd it then
      return (true, newht)
    else
      let item ← verifySome (← htIteratorGet ht it)
      let (answer, newht) ← insert newht item
      if answer.ret ≠ 1 then
        return (false, newht)
      else
        let (_, it) ← htIteratorNext ht it
        rehash insert ht fuel it newht

/-- Grow the table if it is full; every element is visited once, which bounds the
loop. A failure on the way leaves the old table in place. -/
def resizeHashtable (insert : HashTable V → HTKeyValue V → AllocM (Answer V × HashTable V))
    (ht : HashTable V) : AllocM (HashTable V) := do
  if ht.numElements < 3 * ht.numBuckets then
    return ht
  else
    match ← allocateHashTable (ht.numBuckets * 9) with
    | none => return ht
    | some newht =>
      match ← hashTableMakeIterator ht with
      | none =>
        freeHashTable newht
        return ht
      | some it =>
        let (worked, newht) ← rehash insert ht (ht.numElements.toNat + 1) it newht
        if worked then
          freeHashTable ht
          return newht
        else
          freeHashTable newht
          return ht

/-- The rest of `InsertHashTable`, once the table has room. Whether the append
went well is not looked at. -/
def insertEntry (table : HashTable V) (newkeyvalue : HTKeyValue V) :
    AllocM (Answer V × HashTable V) := do
  let insertbucket ← hashKeyToBucketNum table newkeyvalue.key
  let insertchain ← table.bucket insertbucket
  match ← findKVInHashTable insertchain newkeyvalue.key with
  | none =>
    verify (← malloc)
    let (_, insertchain) ← appendLinkedList insertchain newkeyvalue
    return (⟨1, none⟩,
      { table.setBucket insertbucket insertchain with numElements := table.numElements + 1 })
  | some location =>
    let payload ← llIteratorGetPayload insertchain location
    let insertchain ← insertchain.modify location.node fun n => { n with payload := newkeyvalue }
    return (⟨2, some payload⟩, table.setBucket insertbucket insertchain)

def insertHashTable : ℕ → HashTable V → HTKeyValue V → AllocM (Answer V × HashTable V)
  | 0, _, _ => halt .fuel
  | fuel + 1, table, newkeyvalue => do
    let table ← resizeHashtable (insertHashTable fuel) table
    insertEntry table newkeyvalue

end Courses.SearchEngine
