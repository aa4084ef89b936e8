import SQLumDash.Psm.PsmLock
import Mathlib.Algebra.Order.BigOperators.Group.List
import Mathlib.Algebra.Order.Group.Nat

/-!
# Index locks as a whole

The effect of every operation on the entries of an index. A search sees the entries in the bucket of
its key only, so a record can be locked although an entry that compares equal is there.
-/

namespace SQLumDash.Psm

open Hash LinkedList Function PsmList

variable {Key : Type} {blobHash : Key → Nat} {pTable : HashBlob Key}

/-- The release loop keeps the entries that stay. -/
theorem unlockProcLoop_spec (released : Handle → Bool) {rest : List Nat} :
    ∀ {fuel : Nat} {pTable : HashBlob Key} {front : List Nat},
      pTable.Lawful blobHash (front ++ rest) → rest.length ≤ fuel →
      ∃ pTable' order', unlockProcLoop blobHash released fuel rest.head? pTable = some pTable' ∧
        pTable'.Lawful blobHash order' ∧
        pTable'.entries = (front.filterMap pTable.elemAt : Multiset (HashElem Key Handle)) +
          ((rest.filterMap pTable.elemAt : Multiset (HashElem Key Handle)).filter
            fun elem => released elem.data = false) := by
  induction rest with
  | nil =>
    intro fuel pTable front lawful _
    refine ⟨pTable, front ++ [], ?_, lawful, ?_⟩
    · cases fuel <;> rfl
    · unfold HashTable.entries
      rw [lawful.addresses_eq, List.append_nil]
      simp
  | cons j rest ih =>
    intro fuel pTable front lawful enough
    obtain ⟨fuel, rfl⟩ : ∃ left, fuel = left + 1 := ⟨fuel - 1, by simp at enough; omega⟩
    obtain ⟨elem, cell⟩ := lawful.linked.segment.cell
    have at_ : pTable.elemAt j = some elem := by
      rw [HashTable.elemAt, cell]
      rfl
    have step : unlockProcLoop blobHash released (fuel + 1) (j :: rest).head? pTable =
        unlockProcLoop blobHash released fuel rest.head?
          (if released elem.data then hashRemoveElement blobHash pTable j else pTable) := by
      simp only [List.head?_cons, unlockProcLoop, cell]
    have distinct := lawful.linked.distinct
    rw [step]
    cases release : released elem.data with
    | true =>
      obtain ⟨lawful', elements⟩ := hashRemoveElement_spec lawful at_
      rw [erase_middle distinct] at lawful'
      rw [List.nodup_middle, List.nodup_cons] at distinct
      have others : ∀ b ∈ front ++ rest,
          (hashRemoveElement blobHash pTable j).elemAt b = pTable.elemAt b := by
        intro b member
        have other : b ≠ j := fun same => distinct.1 (same ▸ member)
        rw [elements b, if_neg other]
      rw [if_pos rfl]
      obtain ⟨pTable', order', loop, lawful'', entries⟩ := ih lawful' (by simp at enough; omega)
      refine ⟨pTable', order', loop, lawful'', ?_⟩
      have inFront : front.filterMap (hashRemoveElement blobHash pTable j).elemAt =
          front.filterMap pTable.elemAt :=
        List.filterMap_congr fun b member => others b (List.mem_append_left _ member)
      have inRest : rest.filterMap (hashRemoveElement blobHash pTable j).elemAt =
          rest.filterMap pTable.elemAt :=
        List.filterMap_congr fun b member => others b (List.mem_append_right _ member)
      rw [entries, inFront, inRest, List.filterMap_cons, at_]
      simp [release]
    | false =>
      have moved : front ++ j :: rest = front ++ [j] ++ rest := by simp
      rw [moved] at lawful
      rw [if_neg (by decide)]
      obtain ⟨pTable', order', loop, lawful', entries⟩ := ih lawful (by simp at enough; omega)
      refine ⟨pTable', order', loop, lawful', ?_⟩
      rw [entries, List.filterMap_append, List.filterMap_cons, List.filterMap_cons, at_,
        ← Multiset.coe_add, Multiset.add_assoc]
      simp [release]

/-- The release of one hash. -/
theorem unlockProcLoop_entries (released : Handle → Bool) {order : List Nat} {fuel : Nat}
    (lawful : pTable.Lawful blobHash order) (enough : pTable.count ≤ fuel) :
    ∃ pTable' order', unlockProcLoop blobHash released fuel pTable.first pTable =
        some pTable' ∧ pTable'.Lawful blobHash order' ∧
      pTable'.entries = pTable.entries.filter fun elem => released elem.data = false := by
  have whole : pTable.Lawful blobHash ([] ++ order) := lawful
  rw [lawful.counted] at enough
  obtain ⟨pTable', order', loop, lawful', entries⟩ := unlockProcLoop_spec released whole enough
  rw [← lawful.linked.first] at loop
  refine ⟨pTable', order', loop, lawful', ?_⟩
  rw [entries]
  unfold HashTable.entries
  rw [lawful.addresses_eq]
  simp

/-- The invariant of the list of indexes. -/
structure PsmList.Lawful (cls : RecordClass Key) (pList : PsmList Key) : Prop where
  hashes : ∀ iTable ∈ pList.tables, ∃ order, (pList.hash iTable).Lawful cls.blobHash order
  distinct : pList.tables.Nodup

/-- The entries of an index. -/
def PsmList.entries (pList : PsmList Key) (iTable : RootPage) :
    Multiset (HashElem Key Handle) :=
  if iTable ∈ pList.tables then (pList.hash iTable).entries else 0

/-- An equal entry that a search for the record visits. -/
structure PsmList.Sees (cls : RecordClass Key) (pList : PsmList Key) (iTable : RootPage)
    (key : Key) (elem : HashElem Key Handle) : Prop where
  member : elem ∈ pList.entries iTable
  bucket : (pList.hash iTable).SameBucket cls.blobHash elem.key key
  equal : cls.recordComparator iTable elem.key key = true

section

variable {cls : RecordClass Key} {pList pList' : PsmList Key} {iTable other : RootPage} {key : Key}
  {elem : HashElem Key Handle} {pHandle : Handle}

/-- The empty list is lawful. -/
theorem PsmList.init_lawful (cls : RecordClass Key) : Lawful cls .init :=
  ⟨(fun _ member => nomatch member), List.nodup_nil⟩

/-- An index in the list has its hash. -/
theorem PsmList.find_created (created : iTable ∈ pList.tables) :
    pList.find iTable = some (pList.hash iTable) := if_pos created

/-- Another one has none. -/
theorem PsmList.find_absent (absent : iTable ∉ pList.tables) : pList.find iTable = none :=
  if_neg absent

/-- The entries of an index in the list. -/
theorem PsmList.entries_created (created : iTable ∈ pList.tables) :
    pList.entries iTable = (pList.hash iTable).entries := if_pos created

/-- Another one has none. -/
theorem PsmList.entries_absent (absent : iTable ∉ pList.tables) : pList.entries iTable = 0 :=
  if_neg absent

/-- An index with an entry is in the list. -/
theorem PsmList.created_of_mem (member : elem ∈ pList.entries iTable) : iTable ∈ pList.tables := by
  by_contra absent
  rw [entries_absent absent] at member
  exact absurd member (Multiset.notMem_zero _)

/-- Only the hash that is set changes. -/
theorem PsmList.set_hash : (pList.set iTable pTable).hash other =
    if other = iTable then pTable else pList.hash other :=
  update_apply _ _ _ _

/-- An index that is set to the hash it has changes nothing. -/
theorem PsmList.set_self (pList : PsmList Key) (iTable : RootPage) :
    pList.set iTable (pList.hash iTable) = pList := by
  unfold set
  rw [update_eq_self]

/-- Only the index that is set gets other entries. -/
theorem PsmList.entries_set (created : iTable ∈ pList.tables) :
    (pList.set iTable pTable).entries other =
      if other = iTable then pTable.entries else pList.entries other := by
  have tables : (pList.set iTable pTable).tables = pList.tables := rfl
  unfold entries
  rw [set_hash, tables]
  by_cases same : other = iTable
  · rw [if_pos same, if_pos same, same, if_pos created]
  · rw [if_neg same, if_neg same]

/-- A lawful hash may be set. -/
theorem PsmList.Lawful.set (lawful : pList.Lawful cls) {order : List Nat}
    (lawful' : pTable.Lawful cls.blobHash order) : (pList.set iTable pTable).Lawful cls where
  hashes := by
    intro table member
    rw [set_hash]
    by_cases same : table = iTable
    · rw [if_pos same]
      exact ⟨order, lawful'⟩
    · rw [if_neg same]
      exact lawful.hashes table member
  distinct := lawful.distinct

/-- What a search in the hash of an index answers. -/
theorem PsmList.Lawful.find_cases (lawful : pList.Lawful cls) (created : iTable ∈ pList.tables)
    (key : Key) :
    (∃ a elem, findElementWithHash cls.blobHash (cls.recordComparator iTable) (pList.hash iTable)
        key = some a ∧ (pList.hash iTable).elemAt a = some elem ∧ pList.Sees cls iTable key elem) ∨
      findElementWithHash cls.blobHash (cls.recordComparator iTable) (pList.hash iTable) key = none ∧
        ∀ elem, ¬ pList.Sees cls iTable key elem := by
  obtain ⟨order, hashed⟩ := lawful.hashes iTable created
  have spec := findElementWithHash_spec (cls.recordComparator iTable) hashed key
  cases search : findElementWithHash cls.blobHash (cls.recordComparator iTable)
      (pList.hash iTable) key with
  | some a =>
    rw [search] at spec
    obtain ⟨elem, at_, bucket, equal⟩ := spec
    refine Or.inl ⟨a, elem, rfl, at_, ?_, bucket, equal⟩
    rw [entries_created created]
    exact hashed.mem_entries.2 ⟨a, at_⟩
  | none =>
    rw [search] at spec
    refine Or.inr ⟨rfl, fun elem ⟨member, bucket, equal⟩ => ?_⟩
    rw [entries_created created] at member
    obtain ⟨a, at_⟩ := hashed.mem_entries.1 member
    have differ := spec a elem at_ bucket
    rw [equal] at differ
    cases differ

/-- What a lookup in the hash of an index finds. -/
theorem PsmList.Lawful.blobFind_cases (lawful : pList.Lawful cls)
    (created : iTable ∈ pList.tables) (key : Key) :
    (∃ elem, sqlite3HashBlobFind cls iTable (pList.hash iTable) key = some elem.data ∧
        pList.Sees cls iTable key elem) ∨
      sqlite3HashBlobFind cls iTable (pList.hash iTable) key = none ∧
        findElementWithHash cls.blobHash (cls.recordComparator iTable) (pList.hash iTable) key =
          none ∧ ∀ elem, ¬ pList.Sees cls iTable key elem := by
  unfold sqlite3HashBlobFind hashFind
  rcases lawful.find_cases created key with ⟨a, elem, search, at_, sees⟩ | ⟨search, free⟩
  · obtain ⟨cell, here, rfl⟩ := Option.map_eq_some_iff.1 at_
    refine Or.inl ⟨cell.value, ?_, sees⟩
    simp only [search, Option.bind_some, HashTable.dataAt, here, Option.map_some]
  · rw [search]
    exact Or.inr ⟨rfl, rfl, free⟩

/-- The ways a lock request can end. -/
inductive LockOutcome (cls : RecordClass Key) (pHandle : Handle) (pList : PsmList Key)
    (iTable : RootPage) (key : Key) : Rc × PsmList Key → Prop
  /-- The index has no hash. -/
  | unknown (absent : iTable ∉ pList.tables) :
      LockOutcome cls pHandle pList iTable key (.error, pList)
  /-- The search ends at an entry. -/
  | held (elem : HashElem Key Handle) (sees : pList.Sees cls iTable key elem) :
      LockOutcome cls pHandle pList iTable key
        (if elem.data = pHandle then .done else .locked, pList)
  /-- There is no memory for the entry. -/
  | nomem (free : ∀ elem, ¬ pList.Sees cls iTable key elem) :
      LockOutcome cls pHandle pList iTable key (.nomem, pList)
  /-- No memory to insert it, reported as success. -/
  | lost (free : ∀ elem, ¬ pList.Sees cls iTable key elem) :
      LockOutcome cls pHandle pList iTable key (.ok, pList)
  | added (created : iTable ∈ pList.tables) (free : ∀ elem, ¬ pList.Sees cls iTable key elem)
      {pList' : PsmList Key} (tables : pList'.tables = pList.tables)
      (entries : ∀ other, pList'.entries other =
        if other = iTable then ⟨pHandle, key⟩ ::ₘ pList.entries other else pList.entries other) :
      LockOutcome cls pHandle pList iTable key (.ok, pList')

/-- A lock request leaves the indexes as they are. -/
theorem LockOutcome.tables_eq {result : Rc × PsmList Key}
    (outcome : LockOutcome cls pHandle pList iTable key result) :
    result.2.tables = pList.tables := by
  cases outcome with
  | added _ _ tables _ => exact tables
  | unknown _ | held _ _ | nomem _ | lost _ => rfl

/-- An insertion that gets its memory. -/
theorem PsmList.Lawful.hashInsert_added (lawful : pList.Lawful cls) (pHandle : Handle)
    (created : iTable ∈ pList.tables) {alloc : Alloc} (memory : alloc.elem = true ∧ alloc.key = true)
    (search : findElementWithHash cls.blobHash (cls.recordComparator iTable) (pList.hash iTable)
      key = none) :
    let pTable := (sqlite3HashBlobInsert cls alloc iTable (pList.hash iTable) key (some pHandle)).2
    (pList.set iTable pTable).Lawful cls ∧ ∀ other, (pList.set iTable pTable).entries other =
      if other = iTable then ⟨pHandle, key⟩ ::ₘ pList.entries other else pList.entries other := by
  obtain ⟨order, hashed⟩ := lawful.hashes iTable created
  obtain ⟨⟨order', hashed'⟩, entries⟩ := addElement_entries hashed alloc key pHandle
  have inserted : (sqlite3HashBlobInsert cls alloc iTable (pList.hash iTable) key
      (some pHandle)).2 = addElement cls.blobHash alloc (pList.hash iTable) key pHandle := by
    simp only [sqlite3HashBlobInsert, hashInsert, search, memory, and_self, if_true]
  rw [inserted]
  refine ⟨lawful.set hashed', fun other => ?_⟩
  rw [entries_set created, entries]
  by_cases same : other = iTable
  · rw [if_pos same, if_pos same, same, entries_created created]
  · rw [if_neg same, if_neg same]

/-- What a lock request does. -/
theorem PsmList.Lawful.lockRecord (lawful : pList.Lawful cls) (alloc : PsmAlloc) (pHandle : Handle)
    (iTable : RootPage) (key : Key) :
    (sqlite3rowlockPsmLockRecord cls alloc pHandle pList iTable key).2.Lawful cls ∧
      LockOutcome cls pHandle pList iTable key
        (sqlite3rowlockPsmLockRecord cls alloc pHandle pList iTable key) := by
  unfold sqlite3rowlockPsmLockRecord
  by_cases created : iTable ∈ pList.tables
  · rw [find_created created]
    dsimp only
    rcases lawful.blobFind_cases created key with ⟨elem, found, sees⟩ | ⟨missed, search, free⟩
    · rw [found]
      exact ⟨lawful, .held elem sees⟩
    · rw [missed]
      dsimp only
      by_cases data : alloc.data = true
      · rw [if_pos data]
        by_cases memory : alloc.insert.elem = true ∧ alloc.insert.key = true
        · obtain ⟨lawful', entries⟩ :=
            lawful.hashInsert_added pHandle created memory search
          exact ⟨lawful', .added created free rfl entries⟩
        · have kept : (sqlite3HashBlobInsert cls alloc.insert iTable (pList.hash iTable) key
              (some pHandle)).2 = pList.hash iTable := by
            simp only [sqlite3HashBlobInsert, hashInsert, search, memory, if_false]
          rw [kept, pList.set_self]
          exact ⟨lawful, .lost free⟩
      · rw [if_neg data]
        exact ⟨lawful, .nomem free⟩
  · rw [find_absent created]
    exact ⟨lawful, .unknown created⟩

/-- A granted request adds an entry, unless there is no memory to insert it. -/
theorem PsmList.Lawful.lockRecord_granted {alloc : PsmAlloc} (lawful : pList.Lawful cls)
    (granted : (sqlite3rowlockPsmLockRecord cls alloc pHandle pList iTable key).1 = .ok) :
    (∀ elem, ¬ pList.Sees cls iTable key elem) ∧
      ((∀ other, (sqlite3rowlockPsmLockRecord cls alloc pHandle pList iTable key).2.entries other =
        if other = iTable then ⟨pHandle, key⟩ ::ₘ pList.entries other else pList.entries other) ∨
      alloc.loses = true ∧
        (sqlite3rowlockPsmLockRecord cls alloc pHandle pList iTable key).2 = pList) := by
  unfold sqlite3rowlockPsmLockRecord at granted ⊢
  by_cases created : iTable ∈ pList.tables
  · rw [find_created created] at granted ⊢
    dsimp only at granted ⊢
    cases found : sqlite3HashBlobFind cls iTable (pList.hash iTable) key with
    | some data =>
      rw [found] at granted
      dsimp only at granted
      split_ifs at granted
    | none =>
      rw [found] at granted
      dsimp only at granted ⊢
      rcases lawful.blobFind_cases created key with ⟨elem, seen, -⟩ | ⟨-, search, free⟩
      · rw [seen] at found
        cases found
      · split_ifs at granted ⊢ with data
        refine ⟨free, ?_⟩
        by_cases memory : alloc.insert.elem = true ∧ alloc.insert.key = true
        · exact Or.inl (lawful.hashInsert_added pHandle created memory search).2
        · refine Or.inr ⟨?_, ?_⟩
          · unfold PsmAlloc.loses
            rw [data, Bool.true_and, Bool.not_eq_true', ← Bool.not_eq_true, Bool.and_eq_true]
            exact memory
          · simp only [sqlite3HashBlobInsert, hashInsert, search, memory, if_false]
            exact pList.set_self iTable
  · rw [find_absent created] at granted
    cases granted

/-- The ways an unlock can end. -/
inductive UnlockOutcome (cls : RecordClass Key) (pList : PsmList Key) (iTable : RootPage)
    (key : Key) : PsmList Key → Prop
  | absent (free : ∀ elem, ¬ pList.Sees cls iTable key elem) :
      UnlockOutcome cls pList iTable key pList
  /-- What is found is removed, whoever holds it. -/
  | removed (elem : HashElem Key Handle) (sees : pList.Sees cls iTable key elem)
      {pList' : PsmList Key} (tables : pList'.tables = pList.tables)
      (here : pList.entries iTable = elem ::ₘ pList'.entries iTable)
      (others : ∀ other, other ≠ iTable → pList'.entries other = pList.entries other) :
      UnlockOutcome cls pList iTable key pList'

section

variable (outcome : UnlockOutcome cls pList iTable key pList')

include outcome

/-- An unlock leaves the indexes as they are. -/
theorem UnlockOutcome.tables_eq : pList'.tables = pList.tables := by
  cases outcome with
  | absent _ => rfl
  | removed _ _ tables _ _ => exact tables

/-- An unlock adds no entry. -/
theorem UnlockOutcome.le (t : RootPage) : pList'.entries t ≤ pList.entries t := by
  cases outcome with
  | absent => exact le_rfl
  | removed elem sees tables here others =>
    by_cases same : t = iTable
    · rw [same, here]
      exact Multiset.le_cons_self _ _
    · rw [others t same]

/-- An entry that an unlock does not find is still there. -/
theorem UnlockOutcome.mem {t : RootPage} (member : elem ∈ pList.entries t)
    (spared : t = iTable → ¬ pList.Sees cls iTable key elem) : elem ∈ pList'.entries t := by
  cases outcome with
  | absent => exact member
  | removed found sees tables here others =>
    by_cases same : t = iTable
    · subst same
      rw [here] at member
      refine (Multiset.mem_cons.1 member).resolve_left ?_
      rintro rfl
      exact spared rfl sees
    · rwa [others t same]

/-- An unlock spares what it does not find. -/
theorem UnlockOutcome.spared (P : HashElem Key Handle → Prop) [DecidablePred P]
    (spared : ∀ elem, pList.Sees cls iTable key elem → ¬ P elem) (t : RootPage) :
    (pList'.entries t).filter P = (pList.entries t).filter P := by
  cases outcome with
  | absent => rfl
  | removed elem sees tables here others =>
    by_cases same : t = iTable
    · rw [same, here, Multiset.filter_cons_of_neg _ (spared elem sees)]
    · rw [others t same]

end

/-- What an unlock does. -/
theorem PsmList.Lawful.unlockRecord (lawful : pList.Lawful cls) (iTable : RootPage) (key : Key) :
    (sqlite3rowlockPsmUnlockRecord cls pList iTable key).Lawful cls ∧
      UnlockOutcome cls pList iTable key (sqlite3rowlockPsmUnlockRecord cls pList iTable key) := by
  unfold sqlite3rowlockPsmUnlockRecord
  by_cases created : iTable ∈ pList.tables
  · rw [find_created created]
    dsimp only
    rcases lawful.find_cases created key with ⟨a, elem, search, at_, sees⟩ | ⟨search, free⟩
    · obtain ⟨order, hashed⟩ := lawful.hashes iTable created
      have own : (pList.hash iTable).ht.isSome = true → cls.blobHash elem.key %
          (pList.hash iTable).htsize = bucketOf cls.blobHash (pList.hash iTable) key := by
        intro sized
        rw [bucketOf_sized sized]
        exact sees.bucket sized
      obtain ⟨hashed', entries⟩ := removeElement_entries hashed at_ own
      have removed : (sqlite3HashBlobInsert cls .all iTable (pList.hash iTable) key none).2 =
          removeElementGivenHash (pList.hash iTable) a
            (bucketOf cls.blobHash (pList.hash iTable) key) := by
        simp only [sqlite3HashBlobInsert, hashInsert, search]
      rw [removed]
      refine ⟨lawful.set hashed', .removed elem sees rfl ?_ fun other apart => ?_⟩
      · rw [entries_set created, if_pos rfl, entries_created created]
        exact entries
      · rw [entries_set created, if_neg apart]
    · have kept : (sqlite3HashBlobInsert cls .all iTable (pList.hash iTable) key none).2 =
          pList.hash iTable := by
        simp only [sqlite3HashBlobInsert, hashInsert, search]
      rw [kept, pList.set_self]
      exact ⟨lawful, .absent free⟩
  · rw [find_absent created]
    exact ⟨lawful, .absent fun elem sees => created (created_of_mem sees.member)⟩

/-- What a query answers. -/
theorem PsmList.Lawful.query (lawful : pList.Lawful cls) (created : iTable ∈ pList.tables)
    (pHandle : Handle) (key : Key) :
    (∃ elem, pList.Sees cls iTable key elem ∧ sqlite3rowlockPsmLockRecordQuery cls pHandle pList
        iTable key = if elem.data = pHandle then .done else .locked) ∨
      (∀ elem, ¬ pList.Sees cls iTable key elem) ∧
        sqlite3rowlockPsmLockRecordQuery cls pHandle pList iTable key = .ok := by
  unfold sqlite3rowlockPsmLockRecordQuery
  rw [find_created created]
  dsimp only
  rcases lawful.blobFind_cases created key with ⟨elem, found, sees⟩ | ⟨missed, -, free⟩
  · rw [found]
    exact Or.inl ⟨elem, sees, rfl⟩
  · rw [missed]
    exact Or.inr ⟨free, rfl⟩

/-- A running connection releases only its own entries. -/
theorem releasedBy_iff {pHandle entry : Handle} (pid : pHandle.pid ≠ 0)
    (owner : pHandle.owner ≠ 0) :
    releasedBy pHandle.pid pHandle.owner entry = true ↔ entry = pHandle := by
  obtain ⟨pid', owner'⟩ := pHandle
  obtain ⟨pid'', owner''⟩ := entry
  simp [releasedBy, pid, owner]

/-- The release over the indexes. -/
theorem unlockTablesLoop_spec (released : Handle → Bool) {fuel : Nat} {rest : List RootPage} :
    ∀ {pList : PsmList Key}, pList.Lawful cls → rest.Nodup → (∀ iTable ∈ rest, iTable ∈ pList.tables) →
      (∀ iTable ∈ rest, (pList.hash iTable).count ≤ fuel) →
      ∃ pList', unlockTablesLoop cls.blobHash released fuel rest pList = some pList' ∧
        pList'.Lawful cls ∧ pList'.tables = pList.tables ∧ ∀ other, pList'.entries other =
          if other ∈ rest then
            (pList.entries other).filter fun elem => released elem.data = false
          else pList.entries other := by
  induction rest with
  | nil =>
    intro pList lawful _ _ _
    refine ⟨pList, rfl, lawful, rfl, fun other => ?_⟩
    rw [if_neg List.not_mem_nil]
  | cons iTable rest ih =>
    intro pList lawful distinct created enough
    obtain ⟨absent, distinct⟩ := List.nodup_cons.1 distinct
    have here := created iTable List.mem_cons_self
    obtain ⟨order, hashed⟩ := lawful.hashes iTable here
    obtain ⟨pTable, order', loop, hashed', entries⟩ :=
      unlockProcLoop_entries released hashed (enough iTable List.mem_cons_self)
    have apart : ∀ table ∈ rest, (pList.set iTable pTable).hash table = pList.hash table := by
      intro table member
      have other : table ≠ iTable := fun same => absent (by rwa [← same])
      rw [set_hash, if_neg other]
    obtain ⟨pList', loop', lawful', tables, entries'⟩ := ih (lawful.set hashed') distinct
      (fun table member => created table (List.mem_cons_of_mem _ member))
      (fun table member => by
        rw [apart table member]
        exact enough table (List.mem_cons_of_mem _ member))
    refine ⟨pList', ?_, lawful', tables, fun other => ?_⟩
    · simp only [unlockTablesLoop, loop]
      exact loop'
    · rw [entries', entries_set here]
      by_cases same : other = iTable
      · subst same
        rw [if_neg absent, if_pos rfl, if_pos List.mem_cons_self, entries,
          entries_created here]
      · have rest_iff : other ∈ iTable :: rest ↔ other ∈ rest :=
          ⟨fun member => (List.mem_cons.1 member).resolve_left same, List.mem_cons_of_mem _⟩
        simp only [if_neg same, rest_iff]

/-- A release returns, and keeps the entries of others. -/
theorem PsmList.Lawful.unlockProcCore (lawful : pList.Lawful cls) (pid owner : Nat) {fuel : Nat}
    (enough : ∀ iTable ∈ pList.tables, (pList.hash iTable).count ≤ fuel) :
    ∃ pList', sqlite3rowlockPsmUnlockRecordProcCore cls.blobHash pid owner fuel pList =
        some pList' ∧ pList'.Lawful cls ∧ pList'.tables = pList.tables ∧
      ∀ other, pList'.entries other =
        (pList.entries other).filter fun elem => releasedBy pid owner elem.data = false := by
  obtain ⟨pList', loop, lawful', tables, entries⟩ := unlockTablesLoop_spec (releasedBy pid owner)
    lawful lawful.distinct (fun _ member => member) enough
  refine ⟨pList', loop, lawful', tables, fun other => ?_⟩
  rw [entries]
  by_cases created : other ∈ pList.tables
  · rw [if_pos created]
  · rw [if_neg created, entries_absent created, Multiset.filter_zero]

/-- The size bounds every index. -/
theorem PsmList.count_le_size (created : iTable ∈ pList.tables) :
    (pList.hash iTable).count ≤ pList.size :=
  List.single_le_sum (fun _ _ => Nat.zero_le _) _ (List.mem_map.2 ⟨iTable, created, rfl⟩)

/-- A release keeps the entries of others. -/
theorem PsmList.Lawful.unlockProc (lawful : pList.Lawful cls) (pHandle : Handle) :
    (sqlite3rowlockPsmUnlockRecordProc cls.blobHash pHandle pList).Lawful cls ∧
      (sqlite3rowlockPsmUnlockRecordProc cls.blobHash pHandle pList).tables = pList.tables ∧
      ∀ other, (sqlite3rowlockPsmUnlockRecordProc cls.blobHash pHandle pList).entries other =
        (pList.entries other).filter
          fun elem => releasedBy pHandle.pid pHandle.owner elem.data = false := by
  obtain ⟨pList', core, spec⟩ := lawful.unlockProcCore pHandle.pid pHandle.owner
    (fun _ created => count_le_size created)
  unfold sqlite3rowlockPsmUnlockRecordProc
  rw [core]
  exact spec

/-- A new index changes no entries. -/
theorem PsmList.Lawful.createTable (lawful : pList.Lawful cls) (alloc : PsmAlloc)
    (iTable : RootPage) :
    (sqlite3rowlockPsmCreateTable alloc pList iTable).2.Lawful cls ∧
      ∀ other, (sqlite3rowlockPsmCreateTable alloc pList iTable).2.entries other =
        pList.entries other := by
  unfold sqlite3rowlockPsmCreateTable
  by_cases created : iTable ∈ pList.tables
  · rw [find_created created]
    exact ⟨lawful, fun _ => rfl⟩
  · rw [find_absent created]
    split_ifs with data memory
    · refine ⟨⟨fun table member => ?_, List.nodup_cons.2 ⟨created, lawful.distinct⟩⟩,
        fun other => ?_⟩
      · dsimp only at member ⊢
        by_cases same : table = iTable
        · refine ⟨[], ?_⟩
          rw [same, update_self]
          exact HashTable.init_lawful
        · rw [update_of_ne same]
          exact lawful.hashes table ((List.mem_cons.1 member).resolve_left same)
      · unfold entries
        dsimp only
        by_cases same : other = iTable
        · rw [same, if_pos List.mem_cons_self, if_neg created, update_self]
          exact HashTable.init_entries
        · simp only [List.mem_cons, same, false_or, update_of_ne same]
    · exact ⟨lawful, fun _ => rfl⟩
    · exact ⟨lawful, fun _ => rfl⟩

end

/-- The index locks together with their invariant. -/
structure IndexLockTable (cls : RecordClass Key) where
  pList : PsmList Key
  lawful : pList.Lawful cls

namespace IndexLockTable

variable {cls : RecordClass Key} (locks : IndexLockTable cls) (pHandle : Handle) (iTable : RootPage)
  (key : Key)

/-- The list without an index. -/
def init (cls : RecordClass Key) : IndexLockTable cls := ⟨.init, init_lawful cls⟩

/-- `sqlite3rowlockPsmCreateTable` -/
def createTable (alloc : PsmAlloc) : IndexLockTable cls :=
  ⟨_, (locks.lawful.createTable alloc iTable).1⟩

/-- `sqlite3rowlockPsmLockRecord` -/
def lockRecord (alloc : PsmAlloc) : Rc × IndexLockTable cls :=
  let result := sqlite3rowlockPsmLockRecord cls alloc pHandle locks.pList iTable key
  (result.1, ⟨result.2, (locks.lawful.lockRecord alloc pHandle iTable key).1⟩)

/-- `sqlite3rowlockPsmUnlockRecord` -/
def unlockRecord : IndexLockTable cls := ⟨_, (locks.lawful.unlockRecord iTable key).1⟩

/-- `sqlite3rowlockPsmUnlockRecordProc` -/
def unlockRecordProc : IndexLockTable cls := ⟨_, (locks.lawful.unlockProc pHandle).1⟩

end IndexLockTable

end SQLumDash.Psm
