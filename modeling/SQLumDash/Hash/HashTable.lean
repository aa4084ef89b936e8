import SQLumDash.Lib.LinkedList

/-!
# The two hash tables

`rowlock_hash.c` and `rowlock_psm_hash.c` are one design over two kinds of keys. All elements are on
one doubly linked list; a bucket points to its first element there and counts its elements. A table
with few elements has no buckets.
-/

namespace SQLumDash.Hash

open LinkedList Function

/-- `HashElemI64` and `HashElemBlob`, without pointers. -/
structure HashElem (Key Data : Type) where
  data : Data
  key : Key
deriving DecidableEq, Repr

/-- `_htI64` and `_htBlob` -/
structure Bucket where
  count : Nat
  chain : Option Nat
deriving DecidableEq, Repr

/-- `HashI64` and `HashBlob`, with their memory. -/
structure HashTable (Key Data : Type) where
  htsize : Nat
  count : Nat
  first : Option Nat
  ht : Option (Nat → Bucket)
  /-- The elements by address. -/
  mem : Memory (HashElem Key Data)
  /-- The next address. -/
  brk : Nat

/-- Which of the allocations of an insertion succeed. -/
structure Alloc where
  elem : Bool
  key : Bool
  ht : Bool
deriving DecidableEq, Repr

/-- All of them. -/
def Alloc.all : Alloc := ⟨true, true, true⟩

variable {Key Data : Type}

/-- `sqlite3HashI64Init` and `sqlite3HashBlobInit` -/
def HashTable.init : HashTable Key Data := ⟨0, 0, none, none, fun _ => none, 0⟩

/-- `sqlite3HashI64Clear` and `sqlite3HashBlobClear` -/
def HashTable.clear (pH : HashTable Key Data) : HashTable Key Data :=
  { pH with htsize := 0, count := 0, first := none, ht := none, mem := fun _ => none }

/-- The most buckets under `SQLITE_MALLOC_SOFT_LIMIT`. -/
def maxBuckets : Nat := 1024 / 16

/-- `insertElementI64` and `insertElementBlob`: in front of its bucket, or of all elements. -/
def insertElement (pH : HashTable Key Data) (pEntry : Option Nat) (new : Nat)
    (elem : HashElem Key Data) : HashTable Key Data :=
  let bucket := pH.ht.bind fun ht => pEntry.map ht
  let pHead := bucket.bind fun entry => if entry.count = 0 then none else entry.chain
  let ht := pH.ht.map fun ht =>
    match pEntry with
    | none => ht
    | some h => update ht h ⟨(ht h).count + 1, some new⟩
  match pHead with
  | some head =>
    let prev := (pH.mem head).bind Cell.prev
    { pH with
      ht := ht
      mem := link pH.mem new elem prev (some head)
      first := if prev.isSome then pH.first else some new }
  | none =>
    { pH with
      ht := ht
      mem := link pH.mem new elem none pH.first
      first := some new }

section

variable {pH : HashTable Key Data} {ht : Nat → Bucket} {h new head : Nat} {elem : HashElem Key Data}

/-- Into an empty bucket. -/
theorem insertElement_first (buckets : pH.ht = some ht) (empty : (ht h).count = 0) :
    insertElement pH (some h) new elem =
      { pH with
        ht := some (update ht h ⟨(ht h).count + 1, some new⟩)
        mem := link pH.mem new elem none pH.first
        first := some new } := by
  simp [insertElement, buckets, empty]

/-- In front of its bucket. -/
theorem insertElement_before (buckets : pH.ht = some ht) (used : (ht h).count ≠ 0)
    (chain : (ht h).chain = some head) :
    insertElement pH (some h) new elem =
      { pH with
        ht := some (update ht h ⟨(ht h).count + 1, some new⟩)
        mem := link pH.mem new elem ((pH.mem head).bind Cell.prev) (some head)
        first := if ((pH.mem head).bind Cell.prev).isSome then pH.first else some new } := by
  simp [insertElement, buckets, used, chain]

end

/-- The loop of `rehashI64` and `rehashBlob`. -/
def rehashLoop (hash : Key → Nat) : Nat → Option Nat → HashTable Key Data → HashTable Key Data
  | 0, _, pH => pH
  | _ + 1, none, pH => pH
  | fuel + 1, some a, pH =>
    match pH.mem a with
    | none => pH
    | some cell =>
      rehashLoop hash fuel cell.next
        (insertElement pH (some (hash cell.value.key % pH.htsize)) a cell.value)

/-- `rehashI64` and `rehashBlob`: whether there is a new array, and the table. -/
def rehash (hash : Key → Nat) (alloc : Bool) (pH : HashTable Key Data) (newSize : Nat) :
    Bool × HashTable Key Data :=
  let newSize := min newSize maxBuckets
  if newSize = pH.htsize then (false, pH)
  else if alloc then
    (true, rehashLoop hash pH.count pH.first
      { pH with htsize := newSize, ht := some fun _ => ⟨0, none⟩, first := none })
  else (false, pH)

section

variable (hash : Key → Nat) (same : Key → Key → Bool)

section

variable (pH : HashTable Key Data)

/-- The bucket of a key. -/
def bucketOf (key : Key) : Nat :=
  match pH.ht with
  | some _ => hash key % pH.htsize
  | none => 0

/-- `findElementWithHashI64`, `findElementWithHashBlob` -/
def findElementWithHash (key : Key) : Option Nat :=
  match pH.ht with
  | some ht =>
    let pEntry := ht (bucketOf hash pH key)
    findLoop pH.mem (fun elem => same elem.key key) pEntry.count pEntry.chain
  | none => findLoop pH.mem (fun elem => same elem.key key) pH.count pH.first

/-- `removeElementGivenHashI64`, `removeElementGivenHashBlob` -/
def removeElementGivenHash (elem h : Nat) : HashTable Key Data :=
  match pH.mem elem with
  | none => pH
  | some cell =>
    let removed : HashTable Key Data :=
      { pH with
        first := if cell.prev.isSome then pH.first else cell.next
        ht := pH.ht.map fun ht => update ht h
          ⟨(ht h).count - 1, if (ht h).chain = some elem then cell.next else (ht h).chain⟩
        mem := unlink pH.mem elem cell.prev cell.next
        count := pH.count - 1 }
    if removed.count = 0 then removed.clear else removed

/-- The data stored at an address. -/
def HashTable.dataAt (elem : Nat) : Option Data :=
  (pH.mem elem).map fun cell => cell.value.data

/-- `sqlite3HashI64Find` and `sqlite3HashBlobFind` -/
def hashFind (key : Key) : Option Data :=
  (findElementWithHash hash same pH key).bind pH.dataAt

end

/-- Add a new element, with more buckets if needed. -/
def addElement (alloc : Alloc) (pH : HashTable Key Data) (key : Key) (data : Data) :
    HashTable Key Data :=
  let new := pH.brk
  let grown : HashTable Key Data := { pH with count := pH.count + 1, brk := pH.brk + 1 }
  let sized :=
    if grown.count ≥ 10 ∧ grown.count > 2 * grown.htsize then
      (rehash hash alloc.ht grown (grown.count * 2)).2
    else grown
  insertElement sized (sized.ht.map fun _ => bucketOf hash sized key) new ⟨data, key⟩

/-- Write other data into an element, and another key. -/
def replaceElement (pH : HashTable Key Data) (elem : Nat) (data : Data) (rekey : Key → Key) :
    HashTable Key Data :=
  let written := (pH.mem elem).map fun cell =>
    { cell with value := ⟨data, rekey cell.value.key⟩ }
  { pH with mem := update pH.mem elem written }

/-- `sqlite3HashI64Insert` and `sqlite3HashBlobInsert`: data and table. -/
def hashInsert (alloc : Alloc) (pH : HashTable Key Data) (key : Key) (data : Option Data) :
    Option Data × HashTable Key Data :=
  match findElementWithHash hash same pH key, data with
  | some elem, none =>
    (pH.dataAt elem, removeElementGivenHash pH elem (bucketOf hash pH key))
  | some elem, some data =>
    if alloc.key then (pH.dataAt elem, replaceElement pH elem data fun _ => key)
    else (some data, replaceElement pH elem data id)
  | none, none => (none, pH)
  | none, some data =>
    if alloc.elem ∧ alloc.key then (none, addElement hash alloc pH key data) else (some data, pH)

/-- The addresses from `sqliteHashI64First` or `sqliteHashBlobFirst` on. -/
def HashTable.addresses (pH : HashTable Key Data) : List Nat :=
  traverse pH.mem pH.count pH.first

/-- `sqlite3HashBlobRemoveElement` -/
def hashRemoveElement (pH : HashTable Key Data) (elem : Nat) : HashTable Key Data :=
  match pH.mem elem with
  | none => pH
  | some cell => removeElementGivenHash pH elem (bucketOf hash pH cell.value.key)

end

end SQLumDash.Hash
