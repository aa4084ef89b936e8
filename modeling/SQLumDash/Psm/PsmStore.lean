import SQLumDash.Hash.HashI64
import SQLumDash.Psm.IndexLocks

/-!
# The index locks in shared memory

The list of indexes is itself an integer hash table. After any run, whatever memory the calls got, a
lookup in the store finds what the `PsmList` has.
-/

namespace SQLumDash.Psm

open Hash LinkedList Function
open PsmList (set_hash find_created count_le_size)

/-- The key of an index; root pages are positive. -/
def pageKey (iTable : RootPage) : Nat := iTable.val.toNat

/-- `PsmLockMetaData`, without its mutex. -/
structure PsmLockMetaData (Key : Type) where
  list : HashTable RootPage (HashBlob Key)

namespace PsmLockMetaData

variable {Key : Type}

/-- `sqlite3HashI64Init` of the list. -/
def init : PsmLockMetaData Key := ⟨.init⟩

/-- `sqlite3HashI64Find` in the list. -/
def find (pMeta : PsmLockMetaData Key) (iTable : RootPage) : Option (HashBlob Key) :=
  hashFind pageKey (· == ·) pMeta.list iTable

/-- Write the hash that a lookup in the list points to. -/
def write (pMeta : PsmLockMetaData Key) (iTable : RootPage) (pTable : HashBlob Key) :
    PsmLockMetaData Key :=
  match findElementWithHash pageKey (· == ·) pMeta.list iTable with
  | none => pMeta
  | some elem => ⟨replaceElement pMeta.list elem pTable id⟩

/-- `sqlite3rowlockPsmCreateTable`. The insertion is only asserted to succeed. -/
def sqlite3rowlockPsmCreateTable (alloc : PsmAlloc) (pMeta : PsmLockMetaData Key)
    (iTable : RootPage) : Rc × PsmLockMetaData Key :=
  match pMeta.find iTable with
  | some _ => (.ok, pMeta)
  | none =>
    if alloc.data then
      (.ok, ⟨(hashInsert pageKey (· == ·) ⟨alloc.insert.elem, true, alloc.insert.ht⟩ pMeta.list
        iTable (some .init)).2⟩)
    else (.nomem, pMeta)

section

variable (cls : RecordClass Key)

/-- `sqlite3rowlockPsmLockRecord`. The insertion is only asserted to succeed, and the index to be
there. -/
def sqlite3rowlockPsmLockRecord (alloc : PsmAlloc) (pHandle : Handle) (pMeta : PsmLockMetaData Key)
    (iTable : RootPage) (pKey : Key) : Rc × PsmLockMetaData Key :=
  match pMeta.find iTable with
  | none => (.error, pMeta)
  | some pTable =>
    match sqlite3HashBlobFind cls iTable pTable pKey with
    | some pElem => (if pElem = pHandle then .done else .locked, pMeta)
    | none =>
      if alloc.data then
        (.ok, pMeta.write iTable
          (sqlite3HashBlobInsert cls alloc.insert iTable pTable pKey (some pHandle)).2)
      else (.nomem, pMeta)

/-- `sqlite3rowlockPsmUnlockRecord` -/
def sqlite3rowlockPsmUnlockRecord (pMeta : PsmLockMetaData Key) (iTable : RootPage) (pKey : Key) :
    PsmLockMetaData Key :=
  match pMeta.find iTable with
  | none => pMeta
  | some pTable => pMeta.write iTable (sqlite3HashBlobInsert cls .all iTable pTable pKey none).2

/-- The entry that a lookup of a record finds. -/
def lookup (pMeta : PsmLockMetaData Key) (iTable : RootPage) (pKey : Key) : Option Handle :=
  (pMeta.find iTable).bind fun pTable => sqlite3HashBlobFind cls iTable pTable pKey

end

/-- The loop of `sqlite3rowlockPsmUnlockRecordProcCore` over the list. -/
def unlockListLoop (blobHash : Key → Nat) (released : Handle → Bool) :
    Nat → Option Nat → HashTable RootPage (HashBlob Key) →
      Option (HashTable RootPage (HashBlob Key))
  | _, none, list => some list
  | 0, some _, _ => none
  | fuel + 1, some i, list =>
    match list.mem i with
    | none => none
    | some cell =>
      let pTable := cell.value.data
      match unlockProcLoop blobHash released pTable.count pTable.first pTable with
      | none => none
      | some pTable =>
        unlockListLoop blobHash released fuel cell.next (replaceElement list i pTable id)

/-- `sqlite3rowlockPsmUnlockRecordProc`, with as many steps as there are elements. -/
def sqlite3rowlockPsmUnlockRecordProc (blobHash : Key → Nat) (pHandle : Handle)
    (pMeta : PsmLockMetaData Key) : Option (PsmLockMetaData Key) :=
  (unlockListLoop blobHash (releasedBy pHandle.pid pHandle.owner) pMeta.list.count pMeta.list.first
    pMeta.list).map fun list => ⟨list⟩

/-- The list and the hash of every index are lawful. -/
structure Lawful (blobHash : Key → Nat) (pMeta : PsmLockMetaData Key) : Prop where
  list : ∃ order, pMeta.list.Lawful pageKey order
  hashes : ∀ a elem, pMeta.list.elemAt a = some elem → ∃ order, elem.data.Lawful blobHash order

variable {blobHash : Key → Nat} {cls : RecordClass Key} {pMeta : PsmLockMetaData Key}
  {iTable : RootPage} {pTable pTable' : HashBlob Key} {a : Nat}

/-- The empty store is lawful. -/
theorem init_lawful (blobHash : Key → Nat) : (init : PsmLockMetaData Key).Lawful blobHash :=
  ⟨⟨[], HashTable.init_lawful⟩, nofun⟩

section

variable (lawful : pMeta.Lawful blobHash)

include lawful

/-- Where the hash of an index is found. -/
theorem Lawful.find_elem (found : pMeta.find iTable = some pTable) :
    ∃ a, findElementWithHash pageKey (· == ·) pMeta.list iTable = some a ∧
      pMeta.list.elemAt a = some ⟨pTable, iTable⟩ := by
  obtain ⟨order, list⟩ := lawful.list
  obtain ⟨a, search, data⟩ := Option.bind_eq_some_iff.1 found
  have spec := findElementWithHash_spec (· == ·) list iTable
  rw [search] at spec
  obtain ⟨⟨stored, key⟩, at_, -, equal⟩ := spec
  rw [HashTable.dataAt_eq at_] at data
  obtain rfl : key = iTable := eq_of_beq equal
  obtain rfl : stored = pTable := Option.some.inj data
  exact ⟨a, search, at_⟩

/-- What is written for an index is found for it. -/
theorem Lawful.find_write (found : pMeta.find iTable = some pTable) :
    (pMeta.write iTable pTable').find iTable = some pTable' := by
  obtain ⟨a, search, at_⟩ := lawful.find_elem found
  obtain ⟨order, list⟩ := lawful.list
  have elements := (replaceElement_lawful list at_ pTable' (show id iTable = iTable from rfl)).2
  have written : pMeta.write iTable pTable' = ⟨replaceElement pMeta.list a pTable' id⟩ := by
    simp only [write, search]
  rw [written, find, hashFind, findElementWithHash_replace, search, Option.bind_some]
  exact HashTable.dataAt_eq ((elements a).trans (if_pos rfl))

/-- A lawful hash is written for an index. -/
theorem Lawful.write (found : pMeta.find iTable = some pTable)
    (hashed : ∃ order, pTable'.Lawful blobHash order) :
    (pMeta.write iTable pTable').Lawful blobHash := by
  obtain ⟨a, search, at_⟩ := lawful.find_elem found
  obtain ⟨order, list⟩ := lawful.list
  obtain ⟨list', elements⟩ :=
    replaceElement_lawful list at_ pTable' (show id iTable = iTable from rfl)
  have written : pMeta.write iTable pTable' = ⟨replaceElement pMeta.list a pTable' id⟩ := by
    simp only [PsmLockMetaData.write, search]
  rw [written]
  refine ⟨⟨order, list'⟩, fun b elem atB => ?_⟩
  rw [elements] at atB
  split_ifs at atB with here
  · cases atB
    exact hashed
  · exact lawful.hashes b elem atB

/-- The ways the creation of an index can end. -/
inductive CreateOutcome (blobHash : Key → Nat) (pMeta : PsmLockMetaData Key) (alloc : PsmAlloc)
    (iTable : RootPage) : Rc × PsmLockMetaData Key → Prop
  | known (found : (pMeta.find iTable).isSome = true) :
      CreateOutcome blobHash pMeta alloc iTable (.ok, pMeta)
  /-- There is no memory for its hash. -/
  | nomem (absent : pMeta.find iTable = none) (memory : alloc.data = false) :
      CreateOutcome blobHash pMeta alloc iTable (.nomem, pMeta)
  /-- No memory to insert it, reported as success. -/
  | lost (absent : pMeta.find iTable = none) (memory : alloc.data = true)
      (lacking : alloc.insert.elem = false) :
      CreateOutcome blobHash pMeta alloc iTable (.ok, pMeta)
  | added (absent : pMeta.find iTable = none) (memory : alloc.data = true)
      (enough : alloc.insert.elem = true) {pMeta' : PsmLockMetaData Key}
      (lawful : pMeta'.Lawful blobHash) (found : pMeta'.find iTable = some .init) :
      CreateOutcome blobHash pMeta alloc iTable (.ok, pMeta')

/-- What the creation of an index does. -/
theorem Lawful.createTable (alloc : PsmAlloc) (iTable : RootPage) :
    CreateOutcome blobHash pMeta alloc iTable
      (sqlite3rowlockPsmCreateTable alloc pMeta iTable) := by
  unfold sqlite3rowlockPsmCreateTable
  cases found : pMeta.find iTable with
  | some pTable => exact .known (by rw [found]; rfl)
  | none =>
    obtain ⟨order, list⟩ := lawful.list
    have search := list.search_none found
    cases memory : alloc.data with
    | false => exact .nomem found memory
    | true =>
      simp only [if_true, hashInsert, search, and_true]
      cases enough : alloc.insert.elem with
      | false => exact .lost found memory enough
      | true =>
        rw [if_pos rfl]
        obtain ⟨order', -, list', elements⟩ := addElement_spec ⟨true, true, alloc.insert.ht⟩ iTable
          (.init : HashBlob Key) list
        refine .added found memory enough ⟨⟨order', list'⟩, fun a elem at_ => ?_⟩ ?_
        · rw [elements] at at_
          split_ifs at at_ with new
          · cases at_
            exact ⟨[], HashTable.init_lawful⟩
          · exact lawful.hashes a elem at_
        · rw [find, hashFind, addElement_found (· == ·) list _ _ (beq_self_eq_true _),
            Option.bind_some]
          exact HashTable.dataAt_eq ((elements _).trans (if_pos rfl))

end

/-- The ways a lock request can end. -/
inductive LockOutcome (cls : RecordClass Key) (pHandle : Handle) (pMeta : PsmLockMetaData Key)
    (alloc : PsmAlloc) (iTable : RootPage) (pKey : Key) : Rc × PsmLockMetaData Key → Prop
  /-- The index has no hash. -/
  | unknown (absent : pMeta.find iTable = none) :
      LockOutcome cls pHandle pMeta alloc iTable pKey (.error, pMeta)
  /-- The search ends at an entry. -/
  | held (entry : Handle) (found : pMeta.lookup cls iTable pKey = some entry) :
      LockOutcome cls pHandle pMeta alloc iTable pKey
        (if entry = pHandle then .done else .locked, pMeta)
  /-- There is no memory for the entry. -/
  | nomem (free : pMeta.lookup cls iTable pKey = none) (memory : alloc.data = false) :
      LockOutcome cls pHandle pMeta alloc iTable pKey (.nomem, pMeta)
  /-- An entry more, or no memory to insert it. -/
  | granted (pTable : HashBlob Key) (hashed : ∃ order, pTable.Lawful cls.blobHash order)
      (found : pMeta.find iTable = some pTable)
      (free : sqlite3HashBlobFind cls iTable pTable pKey = none) (memory : alloc.data = true)
      {pMeta' : PsmLockMetaData Key} (lawful : pMeta'.Lawful cls.blobHash)
      (written : pMeta'.find iTable = some (if alloc.insert.elem ∧ alloc.insert.key then
        addElement cls.blobHash alloc.insert pTable pKey pHandle else pTable)) :
      LockOutcome cls pHandle pMeta alloc iTable pKey (.ok, pMeta')

/-- Every lock request has one of the outcomes. -/
theorem Lawful.lockRecord (lawful : pMeta.Lawful cls.blobHash) (alloc : PsmAlloc) (pHandle : Handle)
    (iTable : RootPage) (pKey : Key) :
    LockOutcome cls pHandle pMeta alloc iTable pKey
      (sqlite3rowlockPsmLockRecord cls alloc pHandle pMeta iTable pKey) := by
  unfold sqlite3rowlockPsmLockRecord
  cases found : pMeta.find iTable with
  | none => exact .unknown found
  | some pTable =>
    have lookup : pMeta.lookup cls iTable pKey = sqlite3HashBlobFind cls iTable pTable pKey := by
      rw [PsmLockMetaData.lookup, found, Option.bind_some]
    dsimp only
    cases search : sqlite3HashBlobFind cls iTable pTable pKey with
    | some entry => exact .held entry (lookup.trans search)
    | none =>
      dsimp only
      cases memory : alloc.data with
      | false => exact .nomem (lookup.trans search) memory
      | true =>
        rw [if_pos rfl]
        obtain ⟨a, -, at_⟩ := lawful.find_elem found
        obtain ⟨order, hashed⟩ := lawful.hashes a _ at_
        have inserted : (sqlite3HashBlobInsert cls alloc.insert iTable pTable pKey
            (some pHandle)).2 = if alloc.insert.elem ∧ alloc.insert.key then
              addElement cls.blobHash alloc.insert pTable pKey pHandle else pTable := by
          simp only [sqlite3HashBlobInsert, hashInsert, hashed.search_none search]
          split_ifs <;> rfl
        have hashed' : ∃ order, (if alloc.insert.elem ∧ alloc.insert.key then
            addElement cls.blobHash alloc.insert pTable pKey pHandle else pTable).Lawful
              cls.blobHash order := by
          split_ifs
          · obtain ⟨order', -, added, -⟩ := addElement_spec alloc.insert pKey pHandle hashed
            exact ⟨order', added⟩
          · exact ⟨order, hashed⟩
        rw [inserted]
        exact .granted pTable ⟨order, hashed⟩ found search memory (lawful.write found hashed')
          (lawful.find_write found)

variable {alloc : PsmAlloc} {pHandle : Handle} {pKey : Key} {result : Rc × PsmLockMetaData Key}

/-- A lock request keeps the store lawful. -/
theorem LockOutcome.lawful (outcome : LockOutcome cls pHandle pMeta alloc iTable pKey result)
    (lawful : pMeta.Lawful cls.blobHash) : result.2.Lawful cls.blobHash := by
  cases outcome with
  | unknown | held | nomem => exact lawful
  | granted _ _ _ _ _ lawful' _ => exact lawful'

/-- A creation keeps the store lawful. -/
theorem CreateOutcome.lawful (outcome : CreateOutcome blobHash pMeta alloc iTable result)
    (lawful : pMeta.Lawful blobHash) : result.2.Lawful blobHash := by
  cases outcome with
  | known | nomem | lost => exact lawful
  | added _ _ _ lawful' _ => exact lawful'

/-- The hash of each index is released. -/
theorem unlockListLoop_spec (released : Handle → Bool) {rest : List Nat} :
    ∀ {fuel : Nat} {list : HashTable RootPage (HashBlob Key)} {front : List Nat},
      list.Lawful pageKey (front ++ rest) → rest.length ≤ fuel →
      (∀ a elem, list.elemAt a = some elem → ∃ order, elem.data.Lawful blobHash order) →
      ∃ list', unlockListLoop blobHash released fuel rest.head? list = some list' ∧
        list'.Lawful pageKey (front ++ rest) ∧
        ∀ a elem, list.elemAt a = some elem → ∃ pTable,
          list'.elemAt a = some ⟨pTable, elem.key⟩ ∧
          if a ∈ rest then unlockProcLoop blobHash released elem.data.count elem.data.first
            elem.data = some pTable
          else pTable = elem.data := by
  induction rest with
  | nil =>
    intro fuel list front lawful _ _
    refine ⟨list, ?_, lawful, fun a elem at_ => ⟨elem.data, at_, ?_⟩⟩
    · cases fuel <;> rfl
    · rw [if_neg List.not_mem_nil]
  | cons i rest ih =>
    intro fuel list front lawful enough hashes
    obtain ⟨fuel, rfl⟩ : ∃ left, fuel = left + 1 := ⟨fuel - 1, by simp at enough; omega⟩
    obtain ⟨elem, cell⟩ := lawful.linked.segment.cell
    have at_ : list.elemAt i = some elem := by
      rw [HashTable.elemAt, cell]
      rfl
    obtain ⟨order, hashed⟩ := hashes i elem at_
    obtain ⟨pTable, order', loop, hashed', -⟩ := unlockProcLoop_entries released hashed le_rfl
    obtain ⟨lawful', elements⟩ :=
      replaceElement_lawful lawful at_ pTable (show id elem.key = elem.key from rfl)
    have step : unlockListLoop blobHash released (fuel + 1) (i :: rest).head? list =
        unlockListLoop blobHash released fuel rest.head? (replaceElement list i pTable id) := by
      simp only [List.head?_cons, unlockListLoop, cell, loop]
    have moved : front ++ i :: rest = front ++ [i] ++ rest := by simp
    have later : i ∉ rest := by
      have distinct := lawful.linked.distinct
      exact (List.nodup_cons.1 (List.nodup_append.1 distinct).2.1).1
    rw [moved] at lawful' ⊢
    rw [step]
    obtain ⟨list', loop', lawful'', spec⟩ := ih lawful' (by simp at enough; omega)
      (fun a elem' atA => by
        rw [elements] at atA
        split_ifs at atA with here
        · cases atA
          exact ⟨order', hashed'⟩
        · exact hashes a elem' atA)
    refine ⟨list', loop', lawful'', fun a elem' atA => ?_⟩
    by_cases here : a = i
    · subst here
      rw [at_] at atA
      cases atA
      obtain ⟨pTable', at', same⟩ := spec a ⟨pTable, elem.key⟩ ((elements a).trans (if_pos rfl))
      rw [if_neg later] at same
      subst same
      exact ⟨_, at', by rw [if_pos List.mem_cons_self]; exact loop⟩
    · obtain ⟨pTable', at', same⟩ := spec a elem' (by rw [elements a, if_neg here]; exact atA)
      refine ⟨pTable', at', ?_⟩
      simp only [List.mem_cons, here, false_or]
      exact same

section Refinement

/-- The store holds the list. -/
def Shows (pMeta : PsmLockMetaData Key) (pList : PsmList Key) : Prop :=
  pMeta.list.Represents pageKey pList.find

variable {pList : PsmList Key}

/-- The empty store shows the empty list. -/
theorem init_shows : (init : PsmLockMetaData Key).Shows .init := HashTable.init_represents

/-- The list with another hash of an index. -/
theorem find_set (created : iTable ∈ pList.tables) :
    (pList.set iTable pTable).find = update pList.find iTable (some pTable) := by
  funext other
  have tables : (pList.set iTable pTable).tables = pList.tables := rfl
  rw [update_apply, PsmList.find, PsmList.find, set_hash, tables]
  by_cases same : other = iTable
  · rw [if_pos same, if_pos same, same, if_pos created]
  · rw [if_neg same, if_neg same]

/-- The list with one index more. -/
theorem find_cons :
    (PsmList.mk (iTable :: pList.tables) (update pList.hash iTable pTable)).find =
      update pList.find iTable (some pTable) := by
  funext other
  simp only [PsmList.find, update_apply]
  by_cases same : other = iTable
  · rw [if_pos same, if_pos same, same, if_pos List.mem_cons_self]
  · simp only [List.mem_cons, same, false_or, if_false]

/-- What is found is in the list. -/
theorem created_of_find (found : pList.find iTable = some pTable) : iTable ∈ pList.tables := by
  by_contra absent
  rw [PsmList.find_absent absent] at found
  cases found

/-- A loop that has returned needs no more steps. -/
theorem unlockProcLoop_more {released : Handle → Bool} {fuel more : Nat} {start : Option Nat}
    (le : fuel ≤ more)
    (returned : unlockProcLoop blobHash released fuel start pTable = some pTable') :
    unlockProcLoop blobHash released more start pTable = some pTable' := by
  induction fuel generalizing more start pTable with
  | zero =>
    cases start with
    | none => cases more <;> exact returned
    | some j => cases returned
  | succ fuel ih =>
    cases start with
    | none => cases more <;> exact returned
    | some j =>
      obtain ⟨more, rfl⟩ : ∃ less, more = less + 1 := ⟨more - 1, by omega⟩
      rw [unlockProcLoop] at returned ⊢
      cases here : pTable.mem j with
      | none =>
        rw [here] at returned
        cases returned
      | some cell =>
        rw [here] at returned
        exact ih (by omega) returned

/-- The loop over a list of indexes releases the hash of each. -/
theorem unlockTablesLoop_hash (released : Handle → Bool) (fuel : Nat) {rest : List RootPage} :
    ∀ {pList : PsmList Key}, rest.Nodup →
      (∀ t ∈ rest, ∃ pTable, unlockProcLoop blobHash released fuel (pList.hash t).first
        (pList.hash t) = some pTable) →
      ∃ pList', unlockTablesLoop blobHash released fuel rest pList = some pList' ∧
        pList'.tables = pList.tables ∧ ∀ t, if t ∈ rest then
          unlockProcLoop blobHash released fuel (pList.hash t).first (pList.hash t) =
            some (pList'.hash t)
        else pList'.hash t = pList.hash t := by
  induction rest with
  | nil => exact fun _ _ => ⟨_, rfl, rfl, fun t => by rw [if_neg List.not_mem_nil]⟩
  | cons first rest ih =>
    intro pList distinct returns
    obtain ⟨absent, distinct⟩ := List.nodup_cons.1 distinct
    obtain ⟨pTable, loop⟩ := returns first List.mem_cons_self
    have apart : ∀ t ∈ rest, (pList.set first pTable).hash t = pList.hash t := by
      intro t member
      have other : t ≠ first := fun same => absent (by rwa [← same])
      rw [set_hash, if_neg other]
    obtain ⟨pList', loop', tables, hashes⟩ := @ih (pList.set first pTable) distinct
      fun t member => by
        rw [apart t member]
        exact returns t (List.mem_cons_of_mem _ member)
    refine ⟨pList', ?_, tables, fun t => ?_⟩
    · simp only [unlockTablesLoop, loop]
      exact loop'
    · have hash := hashes t
      by_cases same : t = first
      · subst same
        rw [if_neg absent, set_hash, if_pos rfl] at hash
        rw [if_pos List.mem_cons_self, hash]
        exact loop
      · rw [set_hash, if_neg same] at hash
        simpa only [List.mem_cons, same, false_or] using hash

section

variable (shows : pMeta.Shows pList)

include shows

/-- Lookups agree. -/
theorem Shows.find (iTable : RootPage) :
    pMeta.find iTable = pList.find iTable := HashTable.Represents.find shows iTable

/-- What is written into the store is what the list has then. -/
theorem Shows.write (created : iTable ∈ pList.tables)
    (pTable : HashBlob Key) : (pMeta.write iTable pTable).Shows (pList.set iTable pTable) := by
  rcases HashTable.Represents.search shows iTable with ⟨a, old, search, at_, -⟩ | ⟨-, absent⟩
  · have written : pMeta.write iTable pTable = ⟨replaceElement pMeta.list a pTable id⟩ := by
      simp only [PsmLockMetaData.write, search]
    unfold Shows
    rw [written, find_set created]
    exact HashTable.Represents.replace shows at_ pTable rfl
  · rw [find_created created] at absent
    cases absent

/-- A creation on both. -/
theorem Shows.createTable (alloc : PsmAlloc) (iTable : RootPage) :
    (sqlite3rowlockPsmCreateTable alloc pMeta iTable).1 =
        (Psm.sqlite3rowlockPsmCreateTable alloc pList iTable).1 ∧
      (sqlite3rowlockPsmCreateTable alloc pMeta iTable).2.Shows
        (Psm.sqlite3rowlockPsmCreateTable alloc pList iTable).2 := by
  unfold sqlite3rowlockPsmCreateTable Psm.sqlite3rowlockPsmCreateTable
  rw [shows.find]
  cases found : pList.find iTable with
  | some pTable => exact ⟨rfl, shows⟩
  | none =>
    have inserted := (HashTable.Represents.insert shows alloc.insert.elem alloc.insert.ht iTable
      (some .init)).2
    simp only [mapInsert, found, Option.isSome_none, Bool.false_eq_true, false_or] at inserted
    split_ifs at inserted ⊢
    · refine ⟨rfl, ?_⟩
      unfold Shows
      rw [find_cons]
      exact inserted
    · exact ⟨rfl, inserted⟩
    · exact ⟨rfl, shows⟩
    · exact ⟨rfl, shows⟩

/-- A lock request on both. -/
theorem Shows.lockRecord (alloc : PsmAlloc) (pHandle : Handle) (iTable : RootPage) (pKey : Key) :
    (sqlite3rowlockPsmLockRecord cls alloc pHandle pMeta iTable pKey).1 =
        (Psm.sqlite3rowlockPsmLockRecord cls alloc pHandle pList iTable pKey).1 ∧
      (sqlite3rowlockPsmLockRecord cls alloc pHandle pMeta iTable pKey).2.Shows
        (Psm.sqlite3rowlockPsmLockRecord cls alloc pHandle pList iTable pKey).2 := by
  unfold sqlite3rowlockPsmLockRecord Psm.sqlite3rowlockPsmLockRecord
  rw [shows.find]
  cases found : pList.find iTable with
  | none => exact ⟨rfl, shows⟩
  | some pTable =>
    dsimp only
    cases sqlite3HashBlobFind cls iTable pTable pKey with
    | some entry => exact ⟨rfl, shows⟩
    | none =>
      dsimp only
      split_ifs
      · exact ⟨rfl, shows.write (created_of_find found) _⟩
      · exact ⟨rfl, shows⟩

/-- An unlock on both. -/
theorem Shows.unlockRecord (iTable : RootPage) (pKey : Key) :
    (sqlite3rowlockPsmUnlockRecord cls pMeta iTable pKey).Shows
      (Psm.sqlite3rowlockPsmUnlockRecord cls pList iTable pKey) := by
  unfold sqlite3rowlockPsmUnlockRecord Psm.sqlite3rowlockPsmUnlockRecord
  rw [shows.find]
  cases found : pList.find iTable with
  | none => exact shows
  | some pTable => exact shows.write (created_of_find found) _

/-- The end of a transaction on both. -/
theorem Shows.unlockRecordProc (lawful : pList.Lawful cls) (pHandle : Handle) :
    ∃ pMeta', sqlite3rowlockPsmUnlockRecordProc cls.blobHash pHandle pMeta = some pMeta' ∧
      pMeta'.Shows (Psm.sqlite3rowlockPsmUnlockRecordProc cls.blobHash pHandle pList) := by
  let released := releasedBy pHandle.pid pHandle.owner
  obtain ⟨order, list⟩ := shows.lawful
  have hashOf : ∀ a elem, pMeta.list.elemAt a = some elem →
      elem.key ∈ pList.tables ∧ pList.hash elem.key = elem.data := by
    intro a elem at_
    have found : pList.find elem.key = some elem.data := (shows.stored _ _).2 ⟨a, at_⟩
    have created := created_of_find found
    rw [find_created created] at found
    exact ⟨created, Option.some.inj found⟩
  have hashes : ∀ a elem, pMeta.list.elemAt a = some elem →
      ∃ order, elem.data.Lawful cls.blobHash order := by
    intro a elem at_
    obtain ⟨created, same⟩ := hashOf a elem at_
    rw [← same]
    exact lawful.hashes _ created
  have whole : pMeta.list.Lawful pageKey ([] ++ order) := list
  obtain ⟨list', loop, lawful', spec⟩ :=
    unlockListLoop_spec released whole (Nat.le_of_eq list.counted.symm) hashes
  rw [List.nil_append] at lawful'
  rw [← list.linked.first] at loop
  obtain ⟨pList', loopAll, tables, hashes'⟩ := unlockTablesLoop_hash released pList.size
    lawful.distinct fun t created => by
      obtain ⟨order, hashed⟩ := lawful.hashes t created
      obtain ⟨pTable, -, returned, -⟩ := unlockProcLoop_entries released hashed
        (count_le_size created)
      exact ⟨pTable, returned⟩
  have after : Psm.sqlite3rowlockPsmUnlockRecordProc cls.blobHash pHandle pList = pList' := by
    rw [Psm.sqlite3rowlockPsmUnlockRecordProc, sqlite3rowlockPsmUnlockRecordProcCore, loopAll]
    rfl
  -- An element keeps its key, and its hash becomes the one of the list after it.
  have step : ∀ a elem, pMeta.list.elemAt a = some elem →
      list'.elemAt a = some ⟨pList'.hash elem.key, elem.key⟩ := by
    intro a elem at_
    obtain ⟨created, same⟩ := hashOf a elem at_
    obtain ⟨pTable, at', short⟩ := spec a elem at_
    rw [if_pos (list.elemAt_iff.1 (by rw [at_]; rfl)), ← same] at short
    have long := hashes' elem.key
    rw [if_pos created, unlockProcLoop_more (count_le_size created) short] at long
    rw [at', Option.some.inj long]
  have back : ∀ a elem, list'.elemAt a = some elem → ∃ old, pMeta.list.elemAt a = some old ∧
      elem = ⟨pList'.hash old.key, old.key⟩ := by
    intro a elem at'
    have used : (pMeta.list.elemAt a).isSome = true := by
      rw [list.elemAt_iff, ← lawful'.elemAt_iff, at']
      rfl
    obtain ⟨old, at_⟩ := Option.isSome_iff_exists.1 used
    exact ⟨old, at_, Option.some.inj (at'.symm.trans (step a old at_))⟩
  refine ⟨⟨list'⟩, ?_, ?_⟩
  · rw [sqlite3rowlockPsmUnlockRecordProc, loop]
    rfl
  rw [after]
  refine ⟨⟨order, lawful'⟩, fun t pTable => ⟨fun found => ?_, ?_⟩, fun a b x y atA atB same => ?_⟩
  · have created := created_of_find found
    rw [find_created created] at found
    cases found
    rw [tables] at created
    obtain ⟨a, at_⟩ := (shows.stored t _).1 (find_created created)
    exact ⟨a, step a _ at_⟩
  · rintro ⟨a, at'⟩
    obtain ⟨old, at_, same⟩ := back a _ at'
    cases same
    exact find_created (tables ▸ (hashOf a old at_).1)
  · obtain ⟨x', atX, rfl⟩ := back a x atA
    obtain ⟨y', atY, rfl⟩ := back b y atB
    exact shows.once a b x' y' atX atY same

end

/-- The calls on the index locks. -/
inductive PsmCall (Key : Type) where
  | createTable (alloc : PsmAlloc) (iTable : RootPage)
  | lockRecord (alloc : PsmAlloc) (pHandle : Handle) (iTable : RootPage) (pKey : Key)
  | unlockRecord (iTable : RootPage) (pKey : Key)
  | unlockRecordProc (pHandle : Handle)

/-- The list after a call. -/
def PsmCall.onList (cls : RecordClass Key) (pList : PsmList Key) : PsmCall Key → PsmList Key
  | .createTable alloc iTable => (Psm.sqlite3rowlockPsmCreateTable alloc pList iTable).2
  | .lockRecord alloc pHandle iTable pKey =>
    (Psm.sqlite3rowlockPsmLockRecord cls alloc pHandle pList iTable pKey).2
  | .unlockRecord iTable pKey => Psm.sqlite3rowlockPsmUnlockRecord cls pList iTable pKey
  | .unlockRecordProc pHandle => Psm.sqlite3rowlockPsmUnlockRecordProc cls.blobHash pHandle pList

/-- The store after a call. -/
def PsmCall.onStore (cls : RecordClass Key) (pMeta : PsmLockMetaData Key) :
    PsmCall Key → PsmLockMetaData Key
  | .createTable alloc iTable => (sqlite3rowlockPsmCreateTable alloc pMeta iTable).2
  | .lockRecord alloc pHandle iTable pKey =>
    (sqlite3rowlockPsmLockRecord cls alloc pHandle pMeta iTable pKey).2
  | .unlockRecord iTable pKey => sqlite3rowlockPsmUnlockRecord cls pMeta iTable pKey
  | .unlockRecordProc pHandle =>
    (sqlite3rowlockPsmUnlockRecordProc cls.blobHash pHandle pMeta).getD pMeta

/-- A call keeps the store and the list in step. -/
theorem Shows.call (shows : pMeta.Shows pList) (lawful : pList.Lawful cls) (call : PsmCall Key) :
    (call.onStore cls pMeta).Shows (call.onList cls pList) ∧
      (call.onList cls pList).Lawful cls := by
  cases call with
  | createTable alloc iTable =>
    exact ⟨(shows.createTable alloc iTable).2, (lawful.createTable alloc iTable).1⟩
  | lockRecord alloc pHandle iTable pKey =>
    exact ⟨(shows.lockRecord alloc pHandle iTable pKey).2,
      (lawful.lockRecord alloc pHandle iTable pKey).1⟩
  | unlockRecord iTable pKey =>
    exact ⟨shows.unlockRecord iTable pKey, (lawful.unlockRecord iTable pKey).1⟩
  | unlockRecordProc pHandle =>
    obtain ⟨pMeta', returned, shows'⟩ := shows.unlockRecordProc lawful pHandle
    refine ⟨?_, (lawful.unlockProc pHandle).1⟩
    simp only [PsmCall.onStore, returned]
    exact shows'

/-- The store shows the list after any calls, whatever memory they get. -/
theorem store_refines_list (cls : RecordClass Key) (calls : List (PsmCall Key)) :
    (calls.foldl (PsmCall.onStore cls) init).Shows (calls.foldl (PsmCall.onList cls) .init) := by
  have keeps : ∀ {pMeta : PsmLockMetaData Key} {pList : PsmList Key}, pMeta.Shows pList →
      pList.Lawful cls → (calls.foldl (PsmCall.onStore cls) pMeta).Shows
        (calls.foldl (PsmCall.onList cls) pList) := by
    induction calls with
    | nil => exact fun shows _ => shows
    | cons call rest ih =>
      intro pMeta pList shows lawful
      obtain ⟨shows', lawful'⟩ := shows.call lawful call
      exact ih shows' lawful'
  exact keeps init_shows (PsmList.init_lawful cls)

end Refinement

end PsmLockMetaData

end SQLumDash.Psm
