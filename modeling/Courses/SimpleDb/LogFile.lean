import Courses.Lib.RandomAccess

/-!
# The log file

`LogFile` of simpledb: the calls that append records, the checkpoint, and the truncation
that copies the records still needed to a new file. A `long` is its bit pattern. Pages and
the reflection that makes them from their logged bytes are a parameter, as is the order in
which the hash map of the active transactions iterates.
-/
namespace Courses.SimpleDb

open Courses.Lib RandomAccessFile

/-- What the methods of `LogFile` throw. Running out of fuel is not an exception of the source. -/
inductive LogException
  | doubleBegin
  | notACheckpoint
  | badPage
  | negativeArraySize
  | outOfFuel
  deriving DecidableEq

/-! ## Pages in the log -/

/-- What `writePageData` writes of a page. Class names are in the encoding of `writeUTF`, and the
sizes are those Java allows for a class name and an array. -/
@[ext] structure PageImage where
  pageClassName : List UInt8
  idClassName : List UInt8
  pageInfo : List UInt32
  pageData : List UInt8
  pageClassName_lt : pageClassName.length < 2 ^ 16
  idClassName_lt : idClassName.length < 2 ^ 16
  pageInfo_lt : pageInfo.length < 2 ^ 31
  pageData_lt : pageData.length < 2 ^ 31
  deriving DecidableEq

/-- The classes of pages: `Class.forName` and the first constructors of the two classes. -/
structure PageClasses where
  Page : Type
  PageId : Type
  image : Page → PageImage
  forName : List UInt8 → Bool
  newId : List UInt8 → List UInt32 → Option PageId
  newPage : List UInt8 → PageId → List UInt8 → Option Page

/-- `writePageData` -/
def writePageData (p : PageImage) : FileM LogException Unit := do
  writeUTF p.pageClassName
  writeUTF p.idClassName
  RandomAccessFile.writeInt (.ofNat p.pageInfo.length)
  p.pageInfo.forM RandomAccessFile.writeInt
  RandomAccessFile.writeInt (.ofNat p.pageData.length)
  write p.pageData

/-- Read the size of a new array. -/
def readSize : FileM LogException ℕ := do
  let n ← RandomAccessFile.readInt
  if n.toNat < 2 ^ 31 then return n.toNat else throw (.thrown .negativeArraySize)

/-- The loop that reads the arguments of the page id. -/
def readInts : ℕ → FileM LogException (List UInt32)
  | 0 => return []
  | n + 1 => do
    let i ← RandomAccessFile.readInt
    return i :: (← readInts n)

/-- What comes of a constructor called by reflection. -/
def constructed {α : Type} : Option α → FileM LogException α
  | some a => return a
  | none => throw (.thrown .badPage)

/-- `readPageData` -/
def readPageData (C : PageClasses) : FileM LogException C.Page := do
  let pageClassName ← readUTF
  let idClassName ← readUTF
  if !C.forName idClassName then throw (.thrown .badPage)
  if !C.forName pageClassName then throw (.thrown .badPage)
  let numIdArgs ← readSize
  let idArgs ← readInts numIdArgs
  let pid ← constructed (C.newId idClassName idArgs)
  let pageSize ← readSize
  let pageData ← read pageSize
  constructed (C.newPage pageClassName pid pageData)

/-! ## The log -/

def abortRecord : UInt32 := 1

def commitRecord : UInt32 := 2

def updateRecord : UInt32 := 3

def beginRecord : UInt32 := 4

def checkpointRecord : UInt32 := 5

/-- The `long` −1. -/
def noCheckpointId : UInt64 := -1

def longSize : UInt64 := 8

/-- The `HashMap` from transactions to offsets, as its entries. -/
abbrev OffsetMap := List (UInt64 × UInt64)

structure LogFile where
  raf : RandomAccessFile
  recoveryUndecided : Bool
  currentOffset : UInt64
  totalRecords : UInt32
  tidToFirstLogRecord : OffsetMap

abbrev LogM := EStateM (FileError LogException) LogFile

namespace LogFile

/-- The constructor, on a file with any contents. -/
def new (contents : List UInt8) : LogFile :=
  { raf := ⟨contents, 0⟩
    recoveryUndecided := true
    currentOffset := -1
    totalRecords := 0
    tidToFirstLogRecord := [] }

def onRaf {α : Type} (m : FileM LogException α) : LogM α :=
  zoom raf (fun f s => { s with raf := f }) m

/-- `currentOffset = raf.getFilePointer()` -/
def setCurrentOffset : LogM Unit := do
  let p ← onRaf getFilePointer
  modify fun s => { s with currentOffset := p }

/-- `tidToFirstLogRecord.put`. The map has at most as many entries as its `size()` can say. -/
def put (tid offset : UInt64) : LogM Unit := fun s =>
  let others := s.tidToFirstLogRecord.filter (·.1 ≠ tid)
  if others.length + 1 < 2 ^ 31 then
    .ok () { s with tidToFirstLogRecord := (tid, offset) :: others }
  else
    .error .exhausted s

/-- `tidToFirstLogRecord.remove` -/
def remove (tid : UInt64) : LogM Unit := modify fun s =>
  { s with tidToFirstLogRecord := s.tidToFirstLogRecord.filter (·.1 ≠ tid) }

def preAppend : LogM Unit := do
  modify fun s => { s with totalRecords := s.totalRecords + 1 }
  if (← get).recoveryUndecided then
    modify fun s => { s with recoveryUndecided := false }
    onRaf (seek 0)
    onRaf (setLength 0)
    onRaf (writeLong noCheckpointId)
    onRaf (seek (← onRaf length))
    setCurrentOffset

/-- The start of every record. -/
def writeHead (type : UInt32) (tid : UInt64) : LogM Unit := do
  onRaf (RandomAccessFile.writeInt type)
  onRaf (writeLong tid)

/-- `raf.writeLong(currentOffset)`, the end of every record. -/
def writeStart : LogM Unit := do
  let s ← get
  onRaf (writeLong s.currentOffset)

/-- `rollback`, which does not roll back. -/
def rollback (_tid : UInt64) : LogM Unit := preAppend

def logAbort (tid : UInt64) : LogM Unit := do
  preAppend
  rollback tid
  writeHead abortRecord tid
  writeStart
  setCurrentOffset
  remove tid

def logCommit (tid : UInt64) : LogM Unit := do
  preAppend
  writeHead commitRecord tid
  writeStart
  setCurrentOffset
  remove tid

def logWrite (tid : UInt64) (before after : PageImage) : LogM Unit := do
  preAppend
  writeHead updateRecord tid
  onRaf (writePageData before)
  onRaf (writePageData after)
  writeStart
  setCurrentOffset

def logXactionBegin (tid : UInt64) : LogM Unit := do
  if (← get).tidToFirstLogRecord.any (·.1 = tid) then throw (.thrown .doubleBegin)
  preAppend
  writeHead beginRecord tid
  writeStart
  put tid (← get).currentOffset
  setCurrentOffset

/-- An order for the iterators over the map. -/
abbrev IterationOrder := { order : OffsetMap → OffsetMap // ∀ m, (order m).Perm m }

/-- One entry of a checkpoint. -/
def writeEntry (e : UInt64 × UInt64) : FileM LogException Unit := do
  writeLong e.1
  writeLong e.2

/-- The first part of `logCheckpoint`, which writes the record. Flushing the pages of the buffer
pool does not touch the log. -/
def writeCheckpoint (els : IterationOrder) : LogM Unit := do
  preAppend
  let startCpOffset ← onRaf getFilePointer
  writeHead checkpointRecord noCheckpointId
  let keys := (← get).tidToFirstLogRecord
  onRaf (RandomAccessFile.writeInt (.ofNat keys.length))
  onRaf ((els.1 keys).forM writeEntry)
  let endCpOffset ← onRaf getFilePointer
  onRaf (seek 0)
  onRaf (writeLong startCpOffset)
  onRaf (seek endCpOffset)
  writeStart
  setCurrentOffset

/-! ### Truncation -/

/-- The state of `logTruncate`: the log and the new file. -/
structure Truncation where
  log : LogFile
  logNew : RandomAccessFile

abbrev TruncM := EStateM (FileError LogException) Truncation

def onLog {α : Type} (m : LogM α) : TruncM α :=
  zoom Truncation.log (fun s t => { t with log := s }) m

def onOld {α : Type} (m : FileM LogException α) : TruncM α := onLog (onRaf m)

def onNew {α : Type} (m : FileM LogException α) : TruncM α :=
  zoom Truncation.logNew (fun f t => { t with logNew := f }) m

/-- How often a loop that counts to an `int` runs. -/
def loopCount (n : UInt32) : ℕ := n.toBitVec.toInt.toNat

/-- The value of a `long`. -/
def longValue (n : UInt64) : ℤ := n.toBitVec.toInt

/-- The loop over the transactions of the checkpoint. -/
def readMin : ℕ → UInt64 → FileM LogException UInt64
  | 0, minLogRecord => return minLogRecord
  | n + 1, minLogRecord => do
    let _tid ← readLong
    let firstLogRecord ← readLong
    readMin n (if longValue firstLogRecord < longValue minLogRecord then firstLogRecord
      else minLogRecord)

/-- The offset of the first record to keep. -/
def findMin (cpLoc : UInt64) : FileM LogException UInt64 := do
  if cpLoc ≠ noCheckpointId then
    seek cpLoc
    let cpType ← RandomAccessFile.readInt
    let _cpTid ← readLong
    if cpType ≠ checkpointRecord then throw (.thrown .notACheckpoint)
    let numOutstanding ← RandomAccessFile.readInt
    readMin (loopCount numOutstanding) cpLoc
  else
    return cpLoc

/-- An offset in the new file. -/
def moved (minLogRecord offset : UInt64) : UInt64 := (offset - minLogRecord) + longSize

/-- The loop that copies the transactions of a checkpoint. -/
def rewriteEntries (minLogRecord : UInt64) : ℕ → TruncM Unit
  | 0 => return
  | n + 1 => do
    let xid ← onOld readLong
    let xoffset ← onOld readLong
    onNew (writeLong xid)
    onNew (writeLong (moved minLogRecord xoffset))
    rewriteEntries minLogRecord n

/-- The `switch` of `logTruncate`. -/
def rewriteBody (C : PageClasses) (minLogRecord : UInt64) (type : UInt32)
    (record_tid newStart : UInt64) : TruncM Unit := do
  if type = updateRecord then
    let before ← onOld (readPageData C)
    let after ← onOld (readPageData C)
    onNew (writePageData (C.image before))
    onNew (writePageData (C.image after))
  else if type = checkpointRecord then
    let numXactions ← onOld RandomAccessFile.readInt
    onNew (RandomAccessFile.writeInt numXactions)
    rewriteEntries minLogRecord (loopCount numXactions)
  else if type = beginRecord then
    onLog (put record_tid newStart)

/-- One round of the loop of `logTruncate`. -/
def rewriteRecord (C : PageClasses) (minLogRecord : UInt64) : TruncM Unit := do
  let type ← onOld RandomAccessFile.readInt
  let record_tid ← onOld readLong
  let newStart ← onNew getFilePointer
  onNew (RandomAccessFile.writeInt type)
  onNew (writeLong record_tid)
  rewriteBody C minLogRecord type record_tid newStart
  onNew (writeLong newStart)
  let _ ← onOld readLong

/-- The loop of `logTruncate`, until the end of the old file. -/
def rewriteRecords (C : PageClasses) (minLogRecord : UInt64) : ℕ → TruncM Unit
  | 0, t => .error (.thrown .outOfFuel) t
  | fuel + 1, t =>
    match rewriteRecord C minLogRecord t with
    | .ok _ t' => rewriteRecords C minLogRecord fuel t'
    | .error .endOfFile t' => .ok () t'
    | .error e t' => .error e t'

/-- `logTruncate` up to the exchange of the files. -/
def copyLog (C : PageClasses) : TruncM Unit := do
  onLog preAppend
  onOld (seek 0)
  let cpLoc ← onOld readLong
  let minLogRecord ← onOld (findMin cpLoc)
  onNew (seek 0)
  onNew (writeLong (moved minLogRecord cpLoc))
  onOld (seek minLogRecord)
  -- a record takes at least one byte
  rewriteRecords C minLogRecord ((← get).log.raf.bytes.length + 1)

/-- The new file replaces the old one, and the pointer is set to its end. -/
def reopen (newFile : List UInt8) : LogM Unit := do
  modify fun s => { s with raf := ⟨newFile, 0⟩ }
  onRaf (seek (← onRaf length))
  setCurrentOffset

def logTruncate (C : PageClasses) : LogM Unit := fun s =>
  match copyLog C ⟨s, ⟨[], 0⟩⟩ with
  | .error e t => .error e t.log
  | .ok _ t => reopen t.logNew.bytes t.log

def logCheckpoint (C : PageClasses) (els : IterationOrder) : LogM Unit := do
  writeCheckpoint els
  logTruncate C

end LogFile

/-! ## Runs -/

/-- A call on the log. -/
inductive LogCall (C : PageClasses)
  | xactionBegin (tid : UInt64)
  | write (tid : UInt64) (before after : C.Page)
  | commit (tid : UInt64)
  | abort (tid : UInt64)
  | checkpoint

variable {C : PageClasses}

def LogCall.run (els : LogFile.IterationOrder) : LogCall C → LogM Unit
  | .xactionBegin tid => LogFile.logXactionBegin tid
  | .write tid before after => LogFile.logWrite tid (C.image before) (C.image after)
  | .commit tid => LogFile.logCommit tid
  | .abort tid => LogFile.logAbort tid
  | .checkpoint => LogFile.logCheckpoint C els

namespace LogFile

/-- One call. A caller can go on after a refused begin; any other exception ends the run. -/
def step (els : IterationOrder) (s : LogFile) (c : LogCall C) :
    Except (FileError LogException) LogFile :=
  match c.run els s with
  | .ok _ s' => .ok s'
  | .error (.thrown .doubleBegin) s' => .ok s'
  | .error e _ => .error e

def run (els : IterationOrder) (s : LogFile) (calls : List (LogCall C)) :
    Except (FileError LogException) LogFile :=
  calls.foldlM (step els) s

end LogFile

end Courses.SimpleDb
