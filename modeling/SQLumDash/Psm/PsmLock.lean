import SQLumDash.Basic
import SQLumDash.Hash.HashTableSpec
import Mathlib.Algebra.GroupWithZero.Nat

/-!
# The index locks

The locks on the records of unique indexes are kept in one hash per index. The hash of a record is
that of its bytes, while records count as the same when their common columns compare equal. Every
function runs under one mutex.
-/

namespace SQLumDash.Psm

open Hash LinkedList

/-- How records are hashed and compared. -/
structure RecordClass (Key : Type) where
  blobHash : Key → Nat
  /-- `recordComparator` answers zero, under the collation that the callers pass. -/
  recordComparator : RootPage → Key → Key → Bool

/-- The hash of one index; an entry names its holder. -/
abbrev HashBlob (Key : Type) := HashTable Key Handle

/-- The list in `PsmLockMetaData`, a hash by root page. -/
structure PsmList (Key : Type) where
  tables : List RootPage
  hash : RootPage → HashBlob Key

/-- Which allocations in shared memory succeed. -/
structure PsmAlloc where
  /-- The entry, or the hash of an index. -/
  data : Bool
  insert : Alloc
deriving DecidableEq, Repr

/-- All of them. -/
def PsmAlloc.all : PsmAlloc := ⟨true, .all⟩

/-- There is memory for an entry and none to insert it. -/
def PsmAlloc.loses (alloc : PsmAlloc) : Bool :=
  alloc.data && !(alloc.insert.elem && alloc.insert.key)

variable {Key : Type}

/-- The list without an index. -/
def PsmList.init : PsmList Key := ⟨[], fun _ => .init⟩

/-- `sqlite3HashI64Find` on the list. -/
def PsmList.find (pList : PsmList Key) (iTable : RootPage) : Option (HashBlob Key) :=
  if iTable ∈ pList.tables then some (pList.hash iTable) else none

/-- The list with another hash for an index. -/
def PsmList.set (pList : PsmList Key) (iTable : RootPage) (pTable : HashBlob Key) : PsmList Key :=
  { pList with hash := Function.update pList.hash iTable pTable }

/-- `sqlite3rowlockPsmCreateTable`. A failed insertion is reported as success. -/
def sqlite3rowlockPsmCreateTable (alloc : PsmAlloc) (pList : PsmList Key) (iTable : RootPage) :
    Rc × PsmList Key :=
  match pList.find iTable with
  | some _ => (.ok, pList)
  | none =>
    if alloc.data then
      if alloc.insert.elem then
        (.ok, ⟨iTable :: pList.tables, Function.update pList.hash iTable .init⟩)
      else (.ok, pList)
    else (.nomem, pList)

/-- `sqlite3rowlockPsmDropTable`. The condition is on the number of indexes. -/
def sqlite3rowlockPsmDropTable (pList : PsmList Key) (iTable : RootPage) : PsmList Key :=
  if pList.tables.length = 0 then { pList with tables := pList.tables.erase iTable } else pList

section

variable (cls : RecordClass Key)

/-- `sqlite3HashBlobFind` in the hash of an index. -/
def sqlite3HashBlobFind (iTable : RootPage) (pTable : HashBlob Key) (pKey : Key) : Option Handle :=
  hashFind cls.blobHash (cls.recordComparator iTable) pTable pKey

/-- `sqlite3HashBlobInsert` in the hash of an index. -/
def sqlite3HashBlobInsert (alloc : Alloc) (iTable : RootPage) (pTable : HashBlob Key) (pKey : Key)
    (data : Option Handle) : Option Handle × HashBlob Key :=
  hashInsert cls.blobHash (cls.recordComparator iTable) alloc pTable pKey data

/-- `sqlite3rowlockPsmLockRecord`. The absence of the index is an assertion. A failed insertion is
reported as a lock. -/
def sqlite3rowlockPsmLockRecord (alloc : PsmAlloc) (pHandle : Handle) (pList : PsmList Key)
    (iTable : RootPage) (pKey : Key) : Rc × PsmList Key :=
  match pList.find iTable with
  | none => (.error, pList)
  | some pTable =>
    match sqlite3HashBlobFind cls iTable pTable pKey with
    | some pElem => (if pElem = pHandle then .done else .locked, pList)
    | none =>
      if alloc.data then
        (.ok, pList.set iTable
          (sqlite3HashBlobInsert cls alloc.insert iTable pTable pKey (some pHandle)).2)
      else (.nomem, pList)

/-- `sqlite3rowlockPsmLockRecordQuery` -/
def sqlite3rowlockPsmLockRecordQuery (pHandle : Handle) (pList : PsmList Key) (iTable : RootPage)
    (pKey : Key) : Rc :=
  match pList.find iTable with
  | none => .error
  | some pTable =>
    match sqlite3HashBlobFind cls iTable pTable pKey with
    | some pElem => if pElem = pHandle then .done else .locked
    | none => .ok

/-- `sqlite3rowlockPsmUnlockRecord`, by the key alone. -/
def sqlite3rowlockPsmUnlockRecord (pList : PsmList Key) (iTable : RootPage) (pKey : Key) :
    PsmList Key :=
  match pList.find iTable with
  | none => pList
  | some pTable => pList.set iTable (sqlite3HashBlobInsert cls .all iTable pTable pKey none).2

end

/-- The loop of `sqlite3rowlockPsmUnlockRecordProcCore` over one hash. -/
def unlockProcLoop (blobHash : Key → Nat) (released : Handle → Bool) :
    Nat → Option Nat → HashBlob Key → Option (HashBlob Key)
  | _, none, pTable => some pTable
  | 0, some _, _ => none
  | fuel + 1, some j, pTable =>
    match pTable.mem j with
    | none => none
    | some cell =>
      unlockProcLoop blobHash released fuel cell.next
        (if released cell.value.data then hashRemoveElement blobHash pTable j else pTable)

/-- Whether a release takes an entry along; zero stands for all. -/
def releasedBy (pid owner : Nat) (entry : Handle) : Bool :=
  (pid == 0 || entry.pid == pid) && (owner == 0 || entry.owner == owner)

/-- The loop of `sqlite3rowlockPsmUnlockRecordProcCore` over the indexes. -/
def unlockTablesLoop (blobHash : Key → Nat) (released : Handle → Bool) (fuel : Nat) :
    List RootPage → PsmList Key → Option (PsmList Key)
  | [], pList => some pList
  | iTable :: rest, pList =>
    let pTable := pList.hash iTable
    match unlockProcLoop blobHash released fuel pTable.first pTable with
    | none => none
    | some pTable => unlockTablesLoop blobHash released fuel rest (pList.set iTable pTable)

/-- `sqlite3rowlockPsmUnlockRecordProcCore`, with limited steps. -/
def sqlite3rowlockPsmUnlockRecordProcCore (blobHash : Key → Nat) (pid owner fuel : Nat)
    (pList : PsmList Key) : Option (PsmList Key) :=
  unlockTablesLoop blobHash (releasedBy pid owner) fuel pList.tables pList

/-- The number of entries in the list. -/
def PsmList.size (pList : PsmList Key) : Nat :=
  (pList.tables.map fun iTable => (pList.hash iTable).count).sum

/-- `sqlite3rowlockPsmUnlockRecordProc` -/
def sqlite3rowlockPsmUnlockRecordProc (blobHash : Key → Nat) (pHandle : Handle)
    (pList : PsmList Key) : PsmList Key :=
  (sqlite3rowlockPsmUnlockRecordProcCore blobHash pHandle.pid pHandle.owner pList.size
    pList).getD pList

end SQLumDash.Psm
