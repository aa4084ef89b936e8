import SQLumDash.Lib.Run
import SQLumDash.Psm.IndexLocks
import SQLumDash.Psm.Record

/-!
# Looking up a record among the index locks

The locks are hashed by the bytes of whole records but compared by the values of common columns.
Records that compare equal can have different bytes, and then a search passes by the entry.
-/

namespace SQLumDash.Psm

open Hash Runs

/-- `blobHash`, in 32 bits. -/
def blobHash (z : Bytes) : Nat :=
  z.foldl (fun h c => (h + c.toNat) % 2 ^ 32 * 0x9e3779b1 % 2 ^ 32) 0

section

variable (convert : Encoding → Encoding → Bytes → Bytes) (passed : RootPage → Option CollSeq)

/-- Records under the collating sequence passed for each index. -/
def recordClass : RecordClass Bytes :=
  ⟨blobHash, fun iTable key1 key2 => recordComparator convert key1 key2 (passed iTable) = 0⟩

/-- The calls that change the index locks of a database. -/
inductive IndexCall where
  | createTable (alloc : PsmAlloc) (iTable : RootPage)
  | lockRecord (alloc : PsmAlloc) (pHandle : Handle) (iTable : RootPage) (pKey : Bytes)
  | unlockRecord (iTable : RootPage) (pKey : Bytes)

/-- The list after a call. -/
def PsmList.after (pList : PsmList Bytes) : IndexCall → PsmList Bytes
  | .createTable alloc iTable => (sqlite3rowlockPsmCreateTable alloc pList iTable).2
  | .lockRecord alloc pHandle iTable pKey =>
    (sqlite3rowlockPsmLockRecord (recordClass convert passed) alloc pHandle pList iTable pKey).2
  | .unlockRecord iTable pKey =>
    sqlite3rowlockPsmUnlockRecord (recordClass convert passed) pList iTable pKey

/-- The list after calls on a new one with the index. -/
def PsmList.reached (iTable : RootPage) (calls : List IndexCall) : PsmList Bytes :=
  run (PsmList.after convert passed) (sqlite3rowlockPsmCreateTable .all .init iTable).2 calls

variable {convert passed} {iTable : RootPage}

/-- A call keeps the invariant and the indexes of the list. -/
theorem PsmList.Lawful.after {pList : PsmList Bytes}
    (lawful : pList.Lawful (recordClass convert passed)) (call : IndexCall) :
    (pList.after convert passed call).Lawful (recordClass convert passed) ∧
      ∀ iTable ∈ pList.tables, iTable ∈ (pList.after convert passed call).tables := by
  cases call with
  | createTable alloc iTable =>
    refine ⟨(lawful.createTable alloc iTable).1, fun table created => ?_⟩
    simp only [PsmList.after, sqlite3rowlockPsmCreateTable]
    split
    · exact created
    · split_ifs
      · exact List.mem_cons_of_mem _ created
      · exact created
      · exact created
  | lockRecord alloc pHandle iTable pKey =>
    have spec := lawful.lockRecord alloc pHandle iTable pKey
    refine ⟨spec.1, fun table created => ?_⟩
    rw [PsmList.after, spec.2.tables_eq]
    exact created
  | unlockRecord iTable pKey =>
    have spec := lawful.unlockRecord iTable pKey
    refine ⟨spec.1, fun table created => ?_⟩
    rw [PsmList.after, spec.2.tables_eq]
    exact created

/-- It is lawful and has the index. -/
theorem PsmList.reached_lawful (convert : Encoding → Encoding → Bytes → Bytes)
    (passed : RootPage → Option CollSeq) (iTable : RootPage) (calls : List IndexCall) :
    (PsmList.reached convert passed iTable calls).Lawful (recordClass convert passed) ∧
      iTable ∈ (PsmList.reached convert passed iTable calls).tables := by
  refine run_invariant (P := fun pList : PsmList Bytes =>
    pList.Lawful (recordClass convert passed) ∧ iTable ∈ pList.tables)
    (fun pList call holds => ?_) calls ⟨?_, ?_⟩
  · obtain ⟨lawful, kept⟩ := holds.1.after call
    exact ⟨lawful, kept iTable holds.2⟩
  · exact ((PsmList.init_lawful _).createTable .all iTable).1
  · exact List.mem_cons_self

/-- A search finds an equal entry that it visits. -/
theorem PsmList.Lawful.find_isSome_iff {Key : Type} {cls : RecordClass Key} {pList : PsmList Key}
    (lawful : pList.Lawful cls) (created : iTable ∈ pList.tables) (key : Key) :
    (sqlite3HashBlobFind cls iTable (pList.hash iTable) key).isSome = true ↔
      ∃ elem, pList.Sees cls iTable key elem := by
  rcases lawful.blobFind_cases created key with ⟨elem, found, sees⟩ | ⟨missed, -, free⟩
  · rw [found]
    exact iff_of_true rfl ⟨elem, sees⟩
  · rw [missed]
    refine iff_of_false nofun ?_
    rintro ⟨elem, sees⟩
    exact free elem sees

/-- After any calls, the search for a record finds an entry exactly when some locked record compares
equal, if and only if one of those that compare equal has its hash in the record's bucket. -/
theorem find_complete_iff (convert : Encoding → Encoding → Bytes → Bytes)
    (passed : RootPage → Option CollSeq) (iTable : RootPage) (calls : List IndexCall)
    (probe : Bytes) :
    let pList := PsmList.reached convert passed iTable calls
    let pTable := pList.hash iTable
    ((sqlite3HashBlobFind (recordClass convert passed) iTable pTable probe).isSome = true ↔
      ∃ elem ∈ pList.entries iTable, recordComparator convert elem.key probe (passed iTable) = 0) ↔
    ((∃ elem ∈ pList.entries iTable, recordComparator convert elem.key probe (passed iTable) = 0) →
      ∃ elem ∈ pList.entries iTable, recordComparator convert elem.key probe (passed iTable) = 0 ∧
        (pTable.ht.isSome = true →
          blobHash elem.key % pTable.htsize = blobHash probe % pTable.htsize)) := by
  intro pList pTable
  obtain ⟨lawful, created⟩ := PsmList.reached_lawful convert passed iTable calls
  have found := lawful.find_isSome_iff created probe
  have sees : ∀ elem, pList.Sees (recordClass convert passed) iTable probe elem ↔
      elem ∈ pList.entries iTable ∧ recordComparator convert elem.key probe (passed iTable) = 0 ∧
        (pTable.ht.isSome = true →
          blobHash elem.key % pTable.htsize = blobHash probe % pTable.htsize) := by
    intro elem
    exact ⟨fun ⟨member, bucket, equal⟩ => ⟨member, of_decide_eq_true equal, bucket⟩,
      fun ⟨member, equal, bucket⟩ => ⟨member, bucket, decide_eq_true equal⟩⟩
  rw [found]
  constructor
  · intro complete stored
    obtain ⟨elem, visited⟩ := complete.mpr stored
    exact ⟨elem, (sees elem).mp visited⟩
  · intro bucket
    refine ⟨fun ⟨elem, visited⟩ => ⟨elem, visited.member, of_decide_eq_true visited.equal⟩,
      fun stored => ?_⟩
    obtain ⟨elem, visited⟩ := bucket stored
    exact ⟨elem, (sees elem).mpr visited⟩

end

/-- Ten locked keys of one column, each with its rowid. -/
def tenLocks : List IndexCall :=
  [2, 3, 4, 5, 6, 7, 8, 9, 10, 11].map fun key =>
    .lockRecord .all connA.val tableTwo (vdbeMakeRecord [Column.byte key, Column.byte key])

/-- A key is locked with its rowid, but the search for the key alone looks into another bucket. -/
theorem key_in_other_bucket :
    let pList := PsmList.reached (fun _ _ z => z) (fun _ => none) tableTwo tenLocks
    sqlite3HashBlobFind (recordClass (fun _ _ z => z) fun _ => none) tableTwo
        (pList.hash tableTwo) (vdbeMakeRecord [Column.byte 5]) = none ∧
      ∃ elem ∈ pList.entries tableTwo, recordComparator (fun _ _ z => z) elem.key
        (vdbeMakeRecord [Column.byte 5]) none = 0 :=
  ⟨by decide +kernel, ⟨connA.val, vdbeMakeRecord [Column.byte 5, Column.byte 5]⟩,
    by decide +kernel, by decide⟩

end SQLumDash.Psm
