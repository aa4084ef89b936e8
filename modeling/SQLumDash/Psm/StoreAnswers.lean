import SQLumDash.Psm.PsmStore
import SQLumDash.Psm.RecordLocks

/-!
# What the calls on the index locks report

What is reported does not depend on the insertion into the hash, which is only asserted to succeed.
Without memory for the element or its key, a lock is reported that nobody holds.
-/

namespace SQLumDash.Psm

open Hash LinkedList

namespace PsmLockMetaData

variable {Key : Type} {blobHash : Key → Nat} {cls : RecordClass Key} {pMeta : PsmLockMetaData Key}
  {iTable : RootPage} {alloc : PsmAlloc} {pHandle : Handle} {pKey : Key}
  {result : Rc × PsmLockMetaData Key}

/-- A reported lock is there exactly when its insertion gets the memory. -/
theorem LockOutcome.found_iff (outcome : LockOutcome cls pHandle pMeta alloc iTable pKey result)
    (self : cls.recordComparator iTable pKey pKey = true) :
    (result.1 = .ok → result.2.lookup cls iTable pKey = some pHandle) ↔
      ((pMeta.find iTable).isSome = true → pMeta.lookup cls iTable pKey = none →
        alloc.data = true → alloc.insert.elem = true ∧ alloc.insert.key = true) := by
  cases outcome with
  | unknown absent =>
    refine iff_of_true nofun fun known => ?_
    rw [absent] at known
    cases known
  | held entry found =>
    refine iff_of_true (fun granted => ?_) fun _ free => ?_
    · dsimp only at granted
      split_ifs at granted
    · rw [found] at free
      cases free
  | nomem free memory =>
    refine iff_of_true nofun fun _ _ enough => ?_
    rw [memory] at enough
    cases enough
  | granted pTable hashed found free memory lawful written =>
    obtain ⟨order, hashed⟩ := hashed
    have known : (pMeta.find iTable).isSome = true := by rw [found]; rfl
    have unlocked : pMeta.lookup cls iTable pKey = none := by
      rw [lookup, found, Option.bind_some]
      exact free
    rw [lookup, written, Option.bind_some]
    constructor
    · intro granted _ _ _
      by_contra lacking
      rw [if_neg lacking, free] at granted
      cases granted rfl
    · intro enough _
      rw [if_pos (enough known unlocked memory), sqlite3HashBlobFind, hashFind,
        addElement_found _ hashed _ _ self, Option.bind_some]
      obtain ⟨_, -, -, elements⟩ := addElement_spec alloc.insert pKey pHandle hashed
      exact HashTable.dataAt_eq ((elements _).trans (if_pos rfl))

/-- A request that is not granted changes nothing. -/
theorem LockOutcome.unchanged (outcome : LockOutcome cls pHandle pMeta alloc iTable pKey result)
    (refused : result.1 ≠ .ok) : result.2 = pMeta := by
  cases outcome with
  | unknown | held | nomem => rfl
  | granted => exact absurd rfl refused

/-- The same for an index that is reported as created. -/
theorem CreateOutcome.found_iff (outcome : CreateOutcome blobHash pMeta alloc iTable result) :
    (result.1 = .ok → (result.2.find iTable).isSome = true) ↔
      (pMeta.find iTable = none → alloc.data = true → alloc.insert.elem = true) := by
  cases outcome with
  | known found =>
    refine iff_of_true (fun _ => found) fun absent => ?_
    rw [absent] at found
    cases found
  | nomem absent memory =>
    refine iff_of_true nofun fun _ enough => ?_
    rw [memory] at enough
    cases enough
  | lost absent memory lacking =>
    refine iff_of_false (fun created => ?_) fun enough => ?_
    · have found := created rfl
      rw [absent] at found
      cases found
    · rw [enough absent memory] at lacking
      cases lacking
  | added absent memory enough lawful found =>
    refine iff_of_true (fun _ => ?_) fun _ _ => enough
    rw [found]
    rfl

/-- What is refused changes nothing. -/
theorem CreateOutcome.unchanged (outcome : CreateOutcome blobHash pMeta alloc iTable result)
    (refused : result.1 ≠ .ok) : result.2 = pMeta := by
  cases outcome with
  | known | nomem | lost => rfl
  | added => exact absurd rfl refused

/-- The end of a transaction returns. It leaves a lawful store with the same indexes, each with
exactly the entries that are not of the given process and owner. -/
theorem unlockRecordProc_keeps_others (pHandle : Conn) (lawful : pMeta.Lawful blobHash) :
    ∃ pMeta', sqlite3rowlockPsmUnlockRecordProc blobHash pHandle.val pMeta = some pMeta' ∧
      pMeta'.Lawful blobHash ∧ pMeta'.list.addresses = pMeta.list.addresses ∧
      ∀ a iTable pTable, pMeta.list.elemAt a = some ⟨pTable, iTable⟩ → ∃ pTable',
        pMeta'.list.elemAt a = some ⟨pTable', iTable⟩ ∧
        pTable'.entries = pTable.entries.filter fun elem => elem.data ≠ pHandle.val := by
  obtain ⟨order, list⟩ := lawful.list
  have whole : pMeta.list.Lawful pageKey ([] ++ order) := list
  obtain ⟨list', loop, lawful', spec⟩ := unlockListLoop_spec
    (releasedBy pHandle.val.pid pHandle.val.owner) whole (Nat.le_of_eq list.counted.symm)
    lawful.hashes
  rw [List.nil_append] at lawful'
  rw [← list.linked.first] at loop
  have released : ∀ a elem, pMeta.list.elemAt a = some elem → ∃ pTable order,
      list'.elemAt a = some ⟨pTable, elem.key⟩ ∧ pTable.Lawful blobHash order ∧
        pTable.entries = elem.data.entries.filter fun entry => entry.data ≠ pHandle.val := by
    intro a elem at_
    obtain ⟨pTable, at', same⟩ := spec a elem at_
    rw [if_pos (list.elemAt_iff.1 (by rw [at_]; rfl))] at same
    obtain ⟨order, hashed⟩ := lawful.hashes a elem at_
    obtain ⟨pTable', order', loop', hashed', entries⟩ := unlockProcLoop_entries
      (releasedBy pHandle.val.pid pHandle.val.owner) hashed le_rfl
    obtain rfl : pTable' = pTable := Option.some.inj (loop'.symm.trans same)
    refine ⟨pTable', order', at', hashed', entries.trans (Multiset.filter_congr fun entry _ => ?_)⟩
    rw [Bool.eq_false_iff]
    exact not_congr (releasedBy_iff pHandle.property.1 pHandle.property.2)
  refine ⟨⟨list'⟩, ?_, ⟨⟨order, lawful'⟩, fun a elem at' => ?_⟩, ?_, fun a iTable pTable at_ => ?_⟩
  · rw [sqlite3rowlockPsmUnlockRecordProc, loop]
    rfl
  · have used : (pMeta.list.elemAt a).isSome = true := by
      rw [list.elemAt_iff, ← lawful'.elemAt_iff]
      rw [at']
      rfl
    obtain ⟨old, at_⟩ := Option.isSome_iff_exists.1 used
    obtain ⟨pTable, order, at'', hashed, -⟩ := released a old at_
    rw [at''] at at'
    cases at'
    exact ⟨order, hashed⟩
  · rw [lawful'.addresses_eq, list.addresses_eq]
  · obtain ⟨pTable', _, at', -, entries⟩ := released a _ at_
    exact ⟨pTable', at', entries⟩

end PsmLockMetaData

section Self

/-- Bytes are equal to themselves. -/
theorem memcmp_self (z : Bytes) : memcmp z z = 0 := by
  induction z with
  | nil => rfl
  | cons byte rest ih =>
    rw [memcmp, if_pos rfl]
    exact ih

/-- Blobs are equal to themselves. -/
theorem sqlite3BlobCompare_self (z : Bytes) : sqlite3BlobCompare z z = 0 := by
  rw [sqlite3BlobCompare, if_pos (memcmp_self z)]
  exact Int.sub_self _

/-- No double is below itself. -/
theorem Double.lt_irrefl (r : Double) : r.lt r = false := by
  cases r <;> simp [Double.lt]

/-- Texts are equal to themselves. -/
theorem sqlite3StrNICmp_self (n : Nat) (z : Bytes) : sqlite3StrNICmp n z z = 0 := by
  induction n generalizing z with
  | zero => cases z <;> rfl
  | succ n ih =>
    cases z with
    | nil => rfl
    | cons byte rest =>
      rw [sqlite3StrNICmp]
      split_ifs
      · exact ih rest
      · exact Int.sub_self _

/-- Texts are equal to themselves. -/
theorem nocaseCollatingFunc_self (z : Bytes) : nocaseCollatingFunc z z = 0 := by
  simp [nocaseCollatingFunc, sqlite3StrNICmp_self]

variable (convert : Encoding → Encoding → Bytes → Bytes)

/-- A collating sequence finds a text equal to itself. -/
def CollSeq.Reflexive (pColl : CollSeq) : Prop := ∀ z, pColl.xCmp z z = 0

/-- Values are equal to themselves. -/
theorem sqlite3MemCompare_self (enc : Encoding) (value : Mem) {pColl : Option CollSeq}
    (reflexive : ∀ coll ∈ pColl, coll.Reflexive) :
    sqlite3MemCompare convert enc value value pColl = 0 := by
  cases value with
  | null => rfl
  | int i => simp [sqlite3MemCompare, compareBy]
  | real r => simp [sqlite3MemCompare, compareBy, Double.lt_irrefl]
  | blob z => exact sqlite3BlobCompare_self z
  | str z =>
    cases pColl with
    | none => exact sqlite3BlobCompare_self z
    | some coll =>
      have self := reflexive coll rfl
      simp only [sqlite3MemCompare, vdbeCompareMemString, self _, ite_self]

/-- A record compares equal to itself. -/
theorem recordComparator_self (key : Bytes) {pColl : Option CollSeq}
    (reflexive : ∀ coll ∈ pColl, coll.Reflexive) : recordComparator convert key key pColl = 0 := by
  have loop : ∀ fuel szHdr idx d, recordLoop convert key key szHdr szHdr (assumedEnc pColl) pColl
      fuel idx d idx d = 0 := by
    intro fuel
    induction fuel with
    | zero => exact fun _ _ _ => rfl
    | succ fuel ih =>
      intro szHdr idx d
      rw [recordLoop]
      split_ifs
      · simp only [sqlite3MemCompare_self convert _ _ reflexive]
        exact ih _ _ _
      · rfl
  exact loop _ _ _ _

end Self

/-- With any memory, a lock that is reported is found and an index that is reported as created is in
the list exactly when the insertion gets its memory; and what is not granted changes nothing. -/
theorem reported_is_stored_iff (convert : Encoding → Encoding → Bytes → Bytes)
    {passed : RootPage → Option CollSeq}
    (reflexive : ∀ iTable, ∀ coll ∈ passed iTable, coll.Reflexive)
    {pMeta : PsmLockMetaData Bytes} (lawful : pMeta.Lawful blobHash) (alloc : PsmAlloc)
    (pHandle : Handle) (iTable : RootPage) (pKey : Bytes) :
    let cls := recordClass convert passed
    let locked := pMeta.sqlite3rowlockPsmLockRecord cls alloc pHandle iTable pKey
    let created := pMeta.sqlite3rowlockPsmCreateTable alloc iTable
    ((locked.1 = .ok → locked.2.lookup cls iTable pKey = some pHandle) ↔
        ((pMeta.find iTable).isSome = true → pMeta.lookup cls iTable pKey = none →
          alloc.data = true → alloc.insert.elem = true ∧ alloc.insert.key = true)) ∧
      ((created.1 = .ok → (created.2.find iTable).isSome = true) ↔
        (pMeta.find iTable = none → alloc.data = true → alloc.insert.elem = true)) ∧
      (locked.1 ≠ .ok → locked.2 = pMeta) ∧ (created.1 ≠ .ok → created.2 = pMeta) := by
  intro cls locked created
  have hashed : pMeta.Lawful cls.blobHash := lawful
  have lock := hashed.lockRecord alloc pHandle iTable pKey
  have create := lawful.createTable alloc iTable
  have self : cls.recordComparator iTable pKey pKey = true :=
    decide_eq_true (recordComparator_self convert pKey (reflexive iTable))
  exact ⟨lock.found_iff self, create.found_iff, lock.unchanged, create.unchanged⟩

/-- A store with one index that ignores case. -/
def oneIndex : PsmLockMetaData Bytes :=
  (PsmLockMetaData.init.sqlite3rowlockPsmCreateTable .all tableTwo).2

/-- The record of one small key. -/
def recordFive : Bytes := vdbeMakeRecord [Column.byte 5]

/-- It is lawful. -/
theorem oneIndex_lawful : oneIndex.Lawful blobHash :=
  have lawful := PsmLockMetaData.init_lawful blobHash
  (lawful.createTable .all tableTwo).lawful lawful

/-- A record is locked in an index. -/
theorem reported_is_stored_five :
    ((∀ iTable, ∀ coll ∈ (fun _ : RootPage => some nocase) iTable, coll.Reflexive) ∧
      oneIndex.Lawful blobHash) ∧
    let cls := recordClass (fun _ _ z => z) fun _ => some nocase
    let locked := oneIndex.sqlite3rowlockPsmLockRecord cls .all connA.val tableTwo recordFive
    let created := oneIndex.sqlite3rowlockPsmCreateTable .all tableTwo
    ((locked.1 = .ok → locked.2.lookup cls tableTwo recordFive = some connA.val) ↔
        ((oneIndex.find tableTwo).isSome = true →
          oneIndex.lookup cls tableTwo recordFive = none →
          PsmAlloc.all.data = true →
            PsmAlloc.all.insert.elem = true ∧ PsmAlloc.all.insert.key = true)) ∧
      ((created.1 = .ok → (created.2.find tableTwo).isSome = true) ↔
        (oneIndex.find tableTwo = none → PsmAlloc.all.data = true →
          PsmAlloc.all.insert.elem = true)) ∧
      (locked.1 ≠ .ok → locked.2 = oneIndex) ∧ (created.1 ≠ .ok → created.2 = oneIndex) :=
  have reflexive : ∀ iTable, ∀ coll ∈ (fun _ : RootPage => some nocase) iTable, coll.Reflexive := by
    rintro iTable coll ⟨⟩
    exact nocaseCollatingFunc_self
  ⟨⟨reflexive, oneIndex_lawful⟩, reported_is_stored_iff _ reflexive oneIndex_lawful _ _ _ _⟩

/-- Without memory for an element, lock and index are reported but not there. -/
theorem lock_and_index_lost :
    let alloc : PsmAlloc := ⟨true, ⟨false, true, true⟩⟩
    let cls := recordClass (fun _ _ z => z) fun _ => some nocase
    let locked := oneIndex.sqlite3rowlockPsmLockRecord cls alloc connA.val tableTwo recordFive
    let empty : PsmLockMetaData Bytes := PsmLockMetaData.init
    let created := empty.sqlite3rowlockPsmCreateTable alloc tableTwo
    (locked.1 = .ok ∧ locked.2.lookup cls tableTwo recordFive = none) ∧
      created.1 = .ok ∧ (created.2.find tableTwo).isSome = false := by
  decide

/-- Two records of the index, locked by two connections. -/
def twoLocks : PsmLockMetaData Bytes :=
  let cls := recordClass (fun _ _ z => z) fun _ => some nocase
  let first := (oneIndex.sqlite3rowlockPsmLockRecord cls .all connA.val tableTwo recordFive).2
  (first.sqlite3rowlockPsmLockRecord cls .all connB.val tableTwo (vdbeMakeRecord [Column.byte 6])).2

/-- The store with two locks is lawful. -/
theorem twoLocks_lawful : twoLocks.Lawful blobHash := by
  have one : oneIndex.Lawful (recordClass (fun _ _ z => z) fun _ => some nocase).blobHash :=
    oneIndex_lawful
  have first := (one.lockRecord .all connA.val tableTwo recordFive).lawful one
  exact (first.lockRecord .all connB.val tableTwo (vdbeMakeRecord [Column.byte 6])).lawful first

/-- The lock of the second connection stays. -/
theorem unlockRecordProc_keeps_second :
    twoLocks.Lawful blobHash ∧
    ∃ pMeta', twoLocks.sqlite3rowlockPsmUnlockRecordProc blobHash connA.val = some pMeta' ∧
      pMeta'.Lawful blobHash ∧ pMeta'.list.addresses = twoLocks.list.addresses ∧
      ∀ a iTable pTable, twoLocks.list.elemAt a = some ⟨pTable, iTable⟩ → ∃ pTable',
        pMeta'.list.elemAt a = some ⟨pTable', iTable⟩ ∧
        pTable'.entries = pTable.entries.filter fun elem => elem.data ≠ connA.val :=
  ⟨twoLocks_lawful, PsmLockMetaData.unlockRecordProc_keeps_others connA twoLocks_lawful⟩

end SQLumDash.Psm
