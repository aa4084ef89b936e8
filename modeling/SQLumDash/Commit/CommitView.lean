import SQLumDash.Commit.Replay
import SQLumDash.Commit.UndoLocks
import SQLumDash.Ipc.TableRelease

/-!
# What a commit leaves

On trees in key order whose deleted keys are in the shared tree, the two loops fail no assertion and
leave what the transaction sees. The tables have different shared trees, so the order of `rootPages`
does not matter.
-/

namespace SQLumDash.Commit

open Ipc Psm Std Function

variable {Key Data Record : Type}

section Loops

variable {cmp : Key → Key → Ordering} [TransCmp cmp] {fault : ReplayFault}
  {del : List Key} {ins : List (Key × Data)} {table : TransTable Key Data} {key : Key}

/-- What the transaction sees under a key. -/
def TransTable.view (cmp : Key → Key → Ordering) [TransCmp cmp] (table : TransTable Key Data)
    (shared : ExtTreeMap Key Data cmp) (key : Key) : Option Data :=
  ((table.ins.find? fun row => cmp row.1 key == .eq).map Prod.snd).or
    (if table.root.deleteAll = true ∨ ∃ deleted ∈ table.del, cmp deleted key = .eq then none
    else shared[key]?)

/-- Lists in key order, and deleted keys are in the shared tree. -/
structure TransTable.Wellformed (cmp : Key → Key → Ordering) [TransCmp cmp]
    (table : TransTable Key Data) (shared : ExtTreeMap Key Data cmp) : Prop where
  ins : table.ins.Pairwise fun row row' => cmp row.1 row'.1 = .lt
  del : table.del.Pairwise fun key key' => cmp key key' = .lt
  present : ∀ key ∈ table.del, key ∈ shared

/-- The deletion loop removes the keys. -/
theorem commitDeleteLoop_spec (failures : Nat → Option Failure) :
    ∀ {round : Nat} {shared : ExtTreeMap Key Data cmp},
      del.Pairwise (fun key key' => cmp key key' = .lt) → (∀ key ∈ del, key ∈ shared) →
      ∃ result, commitDeleteLoop failures round del shared = .returns result ∧
        (result.1 = .ok → ∀ key, result.2[key]? =
          if ∃ deleted ∈ del, cmp deleted key = .eq then none else shared[key]?) := by
  induction del with
  | nil =>
    intro round shared _ _
    refine ⟨_, rfl, fun _ key => ?_⟩
    rw [if_neg (by simp)]
  | cons deleted rest ih =>
    intro round shared sorted present
    obtain ⟨below, sorted⟩ := List.pairwise_cons.1 sorted
    unfold commitDeleteLoop
    cases failures round with
    | some failure => exact ⟨_, rfl, fun ok => absurd ok failure.2⟩
    | none =>
      rw [if_pos (present deleted List.mem_cons_self)]
      have present' : ∀ key ∈ rest, key ∈ shared.erase deleted := by
        intro key member
        refine ExtTreeMap.mem_erase.2 ⟨fun same => ?_, present key (List.mem_cons_of_mem _ member)⟩
        rw [below key member] at same
        cases same
      obtain ⟨result, returns, content⟩ := ih sorted present'
      refine ⟨result, returns, fun ok key => ?_⟩
      rw [content ok key, ExtTreeMap.getElem?_erase]
      by_cases here : cmp deleted key = .eq
      · rw [if_pos here, ite_self, if_pos ⟨deleted, List.mem_cons_self, here⟩]
      · simp only [here, if_false, List.mem_cons, exists_eq_or_imp, false_or]

/-- Afterwards the deleted keys are gone. -/
theorem transBtreeCommitTableDelete_spec (fault : ReplayFault) (deleteAll : Bool)
    {shared : ExtTreeMap Key Data cmp} (sorted : del.Pairwise fun key key' => cmp key key' = .lt)
    (present : ∀ key ∈ del, key ∈ shared) :
    ∃ result, transBtreeCommitTableDelete fault deleteAll del shared = .returns result ∧
      (result.1 = .ok → ∀ key, result.2[key]? =
        if deleteAll = true ∨ ∃ deleted ∈ del, cmp deleted key = .eq then none
        else shared[key]?) := by
  unfold transBtreeCommitTableDelete
  cases deleteAll with
  | true =>
    cases fault.clear with
    | some failure => exact ⟨_, rfl, fun ok => absurd ok failure.2⟩
    | none => exact ⟨_, rfl, fun _ key => by simp⟩
  | false => simpa using commitDeleteLoop_spec fault.delete sorted present

/-- Afterwards the rows are there. -/
theorem transBtreeCommitTableInsert_spec (failures : Nat → Option Failure) :
    ∀ {round : Nat} {shared : ExtTreeMap Key Data cmp},
      ins.Pairwise (fun row row' => cmp row.1 row'.1 = .lt) →
      (transBtreeCommitTableInsert failures round ins shared).1 = .ok → ∀ key,
        (transBtreeCommitTableInsert failures round ins shared).2[key]? =
          ((ins.find? fun row => cmp row.1 key == .eq).map Prod.snd).or shared[key]? := by
  induction ins with
  | nil => exact fun _ _ _ => rfl
  | cons row rest ih =>
    intro round shared sorted
    obtain ⟨below, sorted⟩ := List.pairwise_cons.1 sorted
    unfold transBtreeCommitTableInsert
    cases failures round with
    | some failure => exact fun ok => absurd ok failure.2
    | none =>
      intro ok key
      rw [ih sorted ok key, ExtTreeMap.getElem?_insert]
      by_cases here : cmp row.1 key = .eq
      · -- No later row has this key.
        have absent : rest.find? (fun later => cmp later.1 key == .eq) = none := by
          apply List.find?_eq_none.2
          intro later member same
          have apart := below later member
          rw [TransCmp.congr_right (OrientedCmp.eq_symm (beq_iff_eq.1 same))] at here
          rw [here] at apart
          cases apart
        rw [absent, List.find?_cons_of_pos (by simp [here]), if_pos here]
        rfl
      · rw [if_neg here, List.find?_cons_of_neg (by simp [here])]

/-- The replay of one table. -/
theorem commitTable_spec (fault : ReplayFault) {shared : ExtTreeMap Key Data cmp}
    (wellformed : table.Wellformed cmp shared) :
    ∃ result, commitTable fault table shared = .returns result ∧
      (result.1 = .ok → ∀ key, result.2[key]? = table.view cmp shared key) := by
  unfold commitTable
  cases fault.cursor with
  | some failure => exact ⟨_, rfl, fun ok => absurd ok failure.2⟩
  | none =>
    obtain ⟨deleted, returns, content⟩ := transBtreeCommitTableDelete_spec fault
      table.root.deleteAll wellformed.del wellformed.present
    rw [returns, Outcome.andThen_returns]
    split_ifs with ok
    · refine ⟨_, rfl, fun inserted key => ?_⟩
      rw [transBtreeCommitTableInsert_spec fault.insert wellformed.ins inserted key, content ok key]
      rfl
    · exact ⟨_, rfl, fun ok' => absurd ok' ok⟩

end Loops

section Tables

variable {cmp : RootPage → Key → Key → Ordering} [∀ t, TransCmp (cmp t)]
  {tables : List (TransTable Key Data)}

/-- The replay of all tables. -/
theorem commitTables_spec (fault : RootPage → ReplayFault)
    (distinct : (tables.map TransTable.iTable).Nodup) :
    ∀ {shared : Shared Key Data cmp},
      (∀ table ∈ tables, table.Wellformed (cmp table.iTable) (shared table.iTable)) →
      ∃ result, commitTables fault tables shared = .returns result ∧ (result.1 = .ok →
        (∀ table ∈ tables, ∀ key, (result.2 table.iTable)[key]? =
          table.view (cmp table.iTable) (shared table.iTable) key) ∧
        ∀ t ∉ tables.map TransTable.iTable, result.2 t = shared t) := by
  induction tables with
  | nil => exact fun _ => ⟨_, rfl, fun _ => ⟨(fun _ member => nomatch member), fun _ _ => rfl⟩⟩
  | cons table rest ih =>
    intro shared wellformed
    rw [List.map_cons, List.nodup_cons] at distinct
    obtain ⟨replayed, returns, content⟩ := commitTable_spec (fault table.iTable)
      (wellformed table List.mem_cons_self)
    have others : ∀ t, t ≠ table.iTable →
        update shared table.iTable replayed.2 t = shared t :=
      fun t apart => update_of_ne apart _ _
    have apart : ∀ each ∈ rest, each.iTable ≠ table.iTable := fun each member same =>
      distinct.1 (same ▸ List.mem_map_of_mem member)
    unfold commitTables
    rw [returns, Outcome.andThen_returns]
    split_ifs with ok
    · have wellformed' : ∀ each ∈ rest, each.Wellformed (cmp each.iTable)
          (update shared table.iTable replayed.2 each.iTable) := by
        intro each member
        rw [others each.iTable (apart each member)]
        exact wellformed each (List.mem_cons_of_mem _ member)
      obtain ⟨result, returns', content'⟩ := ih distinct.2 wellformed'
      refine ⟨result, returns', fun ok' => ?_⟩
      obtain ⟨views, rest_⟩ := content' ok'
      refine ⟨fun each member key => ?_, fun t outside => ?_⟩
      · rcases List.mem_cons.1 member with rfl | inside
        · rw [rest_ each.iTable distinct.1, update_self, content ok key]
        · rw [views each inside key, others each.iTable (apart each inside)]
      · rw [List.map_cons, List.mem_cons, not_or] at outside
        rw [rest_ t outside.2, others t outside.1]
    · exact ⟨_, rfl, fun ok' => absurd ok' ok⟩

end Tables

/-- No lock of a connection is left. -/
structure FreeOf (cfg : Config Record) (conn : Conn) (stores : Stores Record) : Prop where
  rows : ∀ elem ∈ stores.rows.entries cfg.row, elem.handle ≠ conn.1
  tables : ∀ iTable idx, ¬ stores.tables.HasAt cfg.table conn iTable idx
  indexes : ∀ iTable, ∀ elem ∈ stores.indexes.entries iTable, elem.data ≠ conn.1

/-- Taking the exclusive locks keeps the area lawful. -/
theorem exclusiveLockTables_lawful {cfg : TableConfig} {conn : Conn} {faults : LockFaults}
    {tables : RootPages Key Data} {area : TableArea} (lawful : area.Lawful cfg) :
    (exclusiveLockTables cfg conn faults tables area).2.Lawful cfg := by
  have step : ∀ {area : TableArea} (iTable : RootPage) (eLock : TableLock) (mode : LockMode),
      area.Lawful cfg → TableArea.Lawful cfg (request cfg conn area iTable eLock mode) :=
    fun iTable eLock mode lawful =>
      (lawful.lockTable_outcome conn iTable eLock mode).lawful lawful
  have master : (lockMaster cfg conn area).2.1.Lawful cfg := step schemaTable .write .commit lawful
  have loop : (lockTablesLoop cfg conn faults tables.1 (lockMaster cfg conn area).2.1).2.1.Lawful
      cfg := loop_induct conn faults
    (fun area table _ lawful => step table.iTable .exclsv .commit lawful) master
  have undo : ∀ {area : TableArea} (undos : List (RootPage × TableLock)), area.Lawful cfg →
      TableArea.Lawful cfg (undos.foldl (undoLock cfg conn) area) := fun undos lawful =>
    undo_induct conn undos (fun area undo _ lawful => step undo.1 _ _ lawful) lawful
  unfold exclusiveLockTables
  dsimp only
  split_ifs
  · exact lawful
  · exact lawful
  · exact master
  · exact undo [(schemaTable, _)] master
  · exact loop
  · exact undo [(schemaTable, _)] (undo _ loop)

/-- The end of a transaction leaves none of its locks. -/
theorem rollback_freeOf {cmp : RootPage → Key → Key → Ordering} {cfg : Config Record} (conn : Conn)
    {s : CommitState Key Data Record cmp} (lawful : s.stores.Lawful cfg)
    (used : s.transBtreeIsUsed = true) :
    FreeOf cfg conn (sqlite3TransBtreeRollback cfg conn s).stores := by
  unfold sqlite3TransBtreeRollback
  rw [if_pos used]
  refine ⟨fun elem member mine => ?_, fun iTable idx => ?_, fun iTable elem member mine => ?_⟩
  · rw [(lawful.rows.unlockProc conn.1).2, Multiset.mem_filter] at member
    exact member.2 ((RowElement.releasedBy_iff conn.2.1 conn.2.2).2 mine)
  · exact lawful.tables.unlockTablesProc_none conn iTable idx
  · rw [(lawful.indexes.unlockProc conn.1).2.2 iTable, Multiset.mem_filter] at member
    have released : releasedBy conn.1.pid conn.1.owner elem.data = true := by
      simp [releasedBy, mine]
    rw [released] at member
    cases member.2

section

variable {cmp : RootPage → Key → Key → Ordering} [∀ t, TransCmp (cmp t)]

/-- What a successful commit leaves of a state. -/
structure Committed (cfg : Config Record) (conn : Conn) (s s' : CommitState Key Data Record cmp) :
    Prop where
  views : ∀ table ∈ s.rootPages.1, ∀ key, (s'.shared table.iTable)[key]? =
    table.view (cmp table.iTable) (s.shared table.iTable) key
  others : ∀ t ∉ s.rootPages.1.map TransTable.iTable, s'.shared t = s.shared t
  rootPages : s'.rootPages.1 = []
  lockSavepoint : s'.lockSavepoint = .closed
  locks : FreeOf cfg conn s'.stores

/-- The commit under the exclusive locks fails no assertion. -/
theorem commitLocked_spec {cfg : Config Record} (conn : Conn) (faults : CommitFaults) (isDdl : Bool)
    {s : CommitState Key Data Record cmp} (lawful : s.stores.Lawful cfg)
    (used : s.transBtreeIsUsed = true)
    (wellformed : ∀ table ∈ s.rootPages.1,
      table.Wellformed (cmp table.iTable) (s.shared table.iTable)) :
    ∃ result, commitLocked cfg conn faults isDdl s = .returns result ∧
      (result.1 = .ok → Committed cfg conn s result.2) := by
  obtain ⟨replayed, returns, content⟩ := commitTables_spec faults.table s.rootPages.2 wellformed
  unfold commitLocked
  rw [returns, Outcome.andThen_returns]
  generalize (if isDdl then none else faults.cacheReset) = reset
  cases reset with
  | some failure => exact ⟨_, rfl, fun ok => absurd ok failure.2⟩
  | none =>
    cases faults.pCur with
    | true => exact ⟨_, rfl, (fun ok => nomatch ok)⟩
    | false =>
      cases faults.beginTrans with
      | some failure => exact ⟨_, rfl, fun ok => absurd ok failure.2⟩
      | none =>
        by_cases ok : replayed.1 = .ok
        · obtain ⟨views, others⟩ := content ok
          refine ⟨(.ok, sqlite3TransBtreeRollback cfg conn { s with shared := replayed.2 }),
            if_pos ok, fun _ => ?_⟩
          have free : FreeOf cfg conn
              (sqlite3TransBtreeRollback cfg conn { s with shared := replayed.2 }).stores :=
            rollback_freeOf conn lawful used
          have ended : sqlite3TransBtreeRollback cfg conn { s with shared := replayed.2 } = _ :=
            if_pos used
          rw [ended] at free ⊢
          exact ⟨views, others, rfl, rfl, free⟩
        · exact ⟨_, if_neg ok, fun ok' => absurd ok' ok⟩

end

/-- Rowids in their order, for every table. -/
def rowidOrder : RootPage → Int → Int → Ordering := fun _ => compare

instance (t : RootPage) : TransCmp (rowidOrder t) := inferInstanceAs (TransCmp compare)

/-- No call fails. -/
def CommitFaults.none : CommitFaults :=
  ⟨.none, Option.none, false, Option.none,
    fun _ => ⟨Option.none, Option.none, fun _ => Option.none, fun _ => Option.none⟩⟩

/-- Four slots in each area, and numbers for records. -/
def fourSlots : Config Nat :=
  ⟨rowConfig 4 (by decide), tableConfig 4 (by decide), ⟨id, fun _ key key' => key == key'⟩⟩

/-- An update of the only row and an insertion. -/
def updateAndInsert : CommitState Int Nat Nat rowidOrder where
  transBtreeIsUsed := true
  readOnly := false
  rootPages := ⟨[⟨tableTwo, tableTwo_ne_schemaRoot, ⟨3, 4, false⟩, [(5, 8), (6, 9)], [5], nofun⟩],
    by decide⟩
  lockSavepoint := .closed
  shared := fun _ => (∅ : ExtTreeMap Int Nat).insert 5 7
  stores := .init

end SQLumDash.Commit
