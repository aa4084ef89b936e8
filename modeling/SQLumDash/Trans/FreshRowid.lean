import SQLumDash.Trans.CachedRowid
import SQLumDash.Trans.CommitOrder

/-!
# Generated rowids are new

The insertion of a generated rowid does not search the shared tree. Rowids that others have inserted
are locked and refused; one of the shared tree is not. It is not generated as long as no step leaves
the cached rowid below a row, and no transaction with inserted rows commits while another connection
has a generated rowid to insert. The cache does not see to this: an explicit rowid does not raise it
while it is zero, and what is set may be older than what it replaces.
-/

namespace SQLumDash.Trans

open Ipc Psm Savepoint Runs Std
open ExtTreeMap (mem_keys contains_iff_mem not_mem_empty mem_iff_isSome_getElem?)

variable {Record Data : Type} {layout : Layout Record} {s : System layout Data} {conn : Conn}
  {t : RootPage} {row : Int}

section Deleted

/-- Deleted rows are inserted again, and are in the shared tree. -/
def System.Growing (t : RootPage) (s : System layout Data) : Prop :=
  ∀ conn, ∀ row ∈ ((s.trans conn).trees.tables t).del,
    row ∈ ((s.trans conn).trees.tables t).ins ∧ row ∈ s.tables t

/-- An insertion does nothing, or it inserts the row and deletes the one it replaces. -/
theorem step_insertTable (append shared generated : Bool) (rowid : Int) (data : Data) :
    let s' := step s (.insertTable conn t append shared generated rowid data)
    s' = s ∨ s'.tables = s.tables ∧ ∃ isUpdate, (isUpdate = true → rowid ∈ s.tables t) ∧
      (s'.trans conn).trees.tables t =
        ((s.trans conn).trees.tables t).insert isUpdate rowid data := by
  unfold step Action.perform System.sqlite3TransBtreeInsertTable
  refine (afterLock_written (rowRefusal_ne generated)).imp (fun refused => refused.2) ?_
  rintro ⟨-, tables, trees, -⟩
  refine ⟨tables, !append && shared && (s.tables t).contains rowid, fun update => ?_, ?_⟩
  · exact contains_iff_mem.1 (Bool.and_eq_true_iff.1 update).2
  · rw [trees, Trees.setTable_tables, if_pos rfl]

/-- An inserted row was free or the connection's own. -/
theorem insertTable_holder {append shared generated : Bool} {rowid : Int} {data : Data}
    (succeeds : (s.sqlite3TransBtreeInsertTable conn t append shared generated rowid data).1 = .ok) :
    s.holder t rowid = none ∨ s.holder t rowid = some conn.1 := by
  unfold System.sqlite3TransBtreeInsertTable at succeeds
  rcases s.afterLock_cases conn (s.lockRow conn t rowid) (.record t rowid) _ (rowRefusal generated)
    with ⟨granted, -⟩ | ⟨held, -⟩ | ⟨refused, -, eq⟩
  · exact Or.inl (lockRow_ok granted).1
  · exact Or.inr (lockRow_done held).1
  · rw [eq] at succeeds
    exact absurd succeeds (rowRefusal_ne generated _ refused)

variable (growing : s.Growing t)

include growing

/-- What a connection sees of growing trees. -/
theorem System.Growing.view_isSome (conn : Conn) :
    (((s.trans conn).trees.tables t).view (s.tables t) row).isSome = true ↔
      row ∈ ((s.trans conn).trees.tables t).ins ∨ row ∈ s.tables t := by
  unfold Pending.view
  rw [Option.isSome_or, Bool.or_eq_true, ← mem_iff_isSome_getElem?]
  split_ifs with deleted
  · have inserted := (growing conn row deleted).1
    exact ⟨Or.imp_right nofun, fun _ => Or.inl inserted⟩
  · rw [← mem_iff_isSome_getElem?]

/-- The last row it sees is not before a shared one. -/
theorem System.Growing.le_lastAll (conn : Conn) (inside : row ∈ s.tables t) :
    ∃ last, s.lastAll conn t = some last ∧ row ≤ last := by
  have listed : row ∈ ((s.trans conn).trees.tables t).ins.keys ++
      (s.tables t).keys.filter fun rowid => !((s.trans conn).trees.tables t).del.contains rowid := by
    by_cases deleted : row ∈ ((s.trans conn).trees.tables t).del
    · exact List.mem_append_left _ (mem_keys.2 (growing conn row deleted).1)
    · refine List.mem_append_right _ (List.mem_filter.2 ⟨mem_keys.2 inside, ?_⟩)
      rw [Bool.not_eq_true', ← Bool.not_eq_true, contains_iff_mem]
      exact deleted
  unfold System.lastAll
  dsimp only
  generalize ((s.trans conn).trees.tables t).ins.keys ++ _ = rows at listed ⊢
  cases found : rows.max? with
  | none =>
    rw [List.max?_eq_none_iff.1 found] at listed
    cases listed
  | some last => exact ⟨last, rfl, (List.max?_eq_some_iff.1 found).2 row listed⟩

/-- A commit adds the inserted rows. -/
theorem System.Growing.mem_commit :
    row ∈ (step s (.commit conn)).tables t ↔
      row ∈ ((s.trans conn).trees.tables t).ins ∨ row ∈ s.tables t := by
  have replayed : ((step s (.commit conn)).tables t)[row]? =
      ((s.trans conn).trees.tables t).view (s.tables t) row :=
    Pending.replay_view (fun row deleted => (growing conn row deleted).2) row
  rw [mem_iff_isSome_getElem?, replayed]
  exact growing.view_isSome conn

/-- The end of a transaction that removes no row. -/
theorem System.Growing.finished {s' : System layout Data}
    (idle : s'.trans conn = .idle) (others : ∀ other, other ≠ conn → s'.trans other = s.trans other)
    (grown : ∀ row ∈ s.tables t, row ∈ s'.tables t) : s'.Growing t := by
  intro other row deleted
  by_cases same : other = conn
  · rw [same, idle] at deleted
    exact absurd deleted not_mem_empty
  · rw [others other same] at deleted ⊢
    obtain ⟨inserted, inside⟩ := growing other row deleted
    exact ⟨inserted, grown row inside⟩

/-- Insertions only add rows. -/
theorem System.Growing.insertTable (append shared generated : Bool) (rowid : Int) (data : Data) :
    (step s (.insertTable conn t append shared generated rowid data)).Growing t := by
  rcases step_insertTable append shared generated rowid data with same | ⟨tables, isUpdate, update,
    trees⟩
  · rw [same]
    exact growing
  · intro other row deleted
    by_cases same : other = conn
    · subst same
      rw [trees] at deleted ⊢
      rw [tables, Pending.mem_insert_ins]
      rcases Pending.mem_insert_del.1 deleted with ⟨isNew, equal⟩ | old
      · refine ⟨Or.inl equal, ?_⟩
        rw [← Std.compare_eq_iff_eq.1 equal]
        exact update isNew
      · exact ⟨Or.inr (growing other row old).1, (growing other row old).2⟩
    · rw [step_others s _ same] at deleted ⊢
      rw [tables]
      exact growing other row deleted

end Deleted

/-- The rowid is not below any row, committed or not. -/
structure System.Bounds (t : RootPage) (s : System layout Data) (rowid : Int) : Prop where
  shared : ∀ row ∈ s.tables t, row ≤ rowid
  pending : ∀ conn, ∀ row ∈ ((s.trans conn).trees.tables t).ins, row ≤ rowid

/-- An insertion of a row that is not beyond the bound. -/
theorem System.Bounds.insertTable {bound rowid : Int} (bounds : s.Bounds t bound)
    (below : rowid ≤ bound) (append shared generated : Bool) (data : Data) :
    (step s (.insertTable conn t append shared generated rowid data)).Bounds t bound := by
  rcases step_insertTable append shared generated rowid data with same | ⟨tables, isUpdate, -, trees⟩
  · rw [same]
    exact bounds
  · refine ⟨by rw [tables]; exact bounds.shared, fun other row inserted => ?_⟩
    by_cases same : other = conn
    · subst same
      rw [trees, Pending.mem_insert_ins, Std.compare_eq_iff_eq] at inserted
      rcases inserted with rfl | before
      · exact below
      · exact bounds.pending other row before
    · rw [step_others s _ same] at inserted
      exact bounds.pending other row inserted

/-- The end of a transaction that adds only its rows. -/
theorem System.Bounds.finished {s' : System layout Data} {bound : Int} (bounds : s.Bounds t bound)
    (idle : s'.trans conn = .idle) (others : ∀ other, other ≠ conn → s'.trans other = s.trans other)
    (added : ∀ row ∈ s'.tables t, row ∈ ((s.trans conn).trees.tables t).ins ∨ row ∈ s.tables t) :
    s'.Bounds t bound := by
  refine ⟨fun row inside => ?_, fun other row inserted => ?_⟩
  · exact (added row inside).elim (bounds.pending conn row) (bounds.shared row)
  · by_cases same : other = conn
    · rw [same, idle] at inserted
      exact absurd inserted not_mem_empty
    · rw [others other same] at inserted
      exact bounds.pending other row inserted

variable {iTable : Cache.Table}

/-- What holds in every state of a run. -/
structure RowidSystem.Lawful (iTable : Cache.Table) (s : RowidSystem layout Data) : Prop where
  aligned : s.system.Aligned
  plain : s.system.NoSavepoint
  locked : ∀ conn, RowsLocked s.system conn
  growing : s.system.Growing (root iTable)
  cached : s.sqlite3BtreeCachedRowidGet iTable = 0 ∨
    s.system.Bounds (root iTable) (s.sqlite3BtreeCachedRowidGet iTable)
  fresh : ∀ conn rowid, (s.cursor conn).phase.generated? = some rowid →
    rowid ∉ s.system.tables (root iTable)

/-- The next step leaves the cached rowid below no row. -/
structure KeepsCacheHigh (iTable : Cache.Table) (s : RowidSystem layout Data) (conn : Conn) :
    Prop where
  /-- What is cached is zero or not below any row. -/
  set : ∀ rowid, (s.cursor conn).phase.sets? = some rowid →
    rowid = 0 ∨ s.system.Bounds (root iTable) rowid
  /-- What is inserted is not beyond a cached rowid. -/
  insert : ∀ row, (s.cursor conn).phase = .insert row →
    s.sqlite3BtreeCachedRowidGet iTable = 0 ∨ row.rowid ≤ s.sqlite3BtreeCachedRowidGet iTable

/-- No step leaves the cached rowid below a row, and no transaction with inserted rows commits while
another connection has a generated rowid to insert. -/
def RowidDiscipline (iTable : Cache.Table) (s : RowidSystem layout Data) : RowidAction Data → Prop
  | .next conn => KeepsCacheHigh iTable s conn
  | .commit conn => ∀ other, other ≠ conn → (s.cursor other).phase.generated? ≠ none →
    ∀ row, row ∉ ((s.system.trans conn).trees.tables (root iTable)).ins
  | _ => True

section Steps

variable {s s' : RowidSystem layout Data} {cursor : RowidCursor Data}

section

variable (lawful : s.Lawful iTable)

include lawful

/-- A step that keeps or forgets the cached rowid. -/
theorem RowidSystem.Lawful.forget (system : s'.system = s.system) (cursors : s'.cursor = s.cursor)
    (cached : s'.sqlite3BtreeCachedRowidGet iTable = 0 ∨
      s'.sqlite3BtreeCachedRowidGet iTable = s.sqlite3BtreeCachedRowidGet iTable) :
    s'.Lawful iTable := by
  refine ⟨system ▸ lawful.aligned, system ▸ lawful.plain, system ▸ lawful.locked,
    system ▸ lawful.growing, ?_, fun conn rowid has => ?_⟩
  · rcases cached with unknown | same
    · exact Or.inl unknown
    · rw [same, system]
      exact lawful.cached
  · rw [system]
    exact lawful.fresh conn rowid (cursors ▸ has)

/-- A rowid is cached that is zero or not below any row. -/
theorem RowidSystem.Lawful.set {rowid : Int}
    (high : rowid = 0 ∨ s.system.Bounds (root iTable) rowid) :
    (s.sqlite3BtreeCachedRowidSet iTable rowid).Lawful iTable := by
  refine ⟨lawful.aligned, lawful.plain, lawful.locked, lawful.growing, ?_, lawful.fresh⟩
  rcases s.pCachedRowid.get_set iTable rowid with set | full
  · rw [show (s.sqlite3BtreeCachedRowidSet iTable rowid).sqlite3BtreeCachedRowidGet iTable = rowid
      from set]
    exact high
  · unfold RowidSystem.sqlite3BtreeCachedRowidGet RowidSystem.sqlite3BtreeCachedRowidSet
    rw [full]
    exact lawful.cached

/-- A step that changes only the cursor. -/
theorem RowidSystem.Lawful.move
    (fresh : ∀ rowid, cursor.phase.generated? = some rowid → rowid ∉ s.system.tables (root iTable)) :
    (s.setCursor conn cursor).Lawful iTable := by
  refine ⟨lawful.aligned, lawful.plain, lawful.locked, lawful.growing, lawful.cached, ?_⟩
  intro other rowid has
  unfold RowidSystem.setCursor at has
  dsimp only at has
  by_cases same : other = conn
  · rw [same, Function.update_self] at has
    exact fresh rowid has
  · rw [Function.update_of_ne same] at has
    exact lawful.fresh other rowid has

/-- A rowid apart from those of the shared tree. -/
theorem RowidSystem.Lawful.generate {rowid : Int} {data : Data}
    (apart : ∀ row ∈ s.system.tables (root iTable), row ≠ rowid) :
    (s.goto conn (.newSet (RowidSystem.generatedRow rowid data))).Lawful iTable := by
  refine lawful.move fun generated has inside => apart generated inside ?_
  exact (Option.some.inj has).symm

/-- A step of the transactions that brings no rowid on its way into the shared tree. -/
theorem RowidSystem.Lawful.act (action : Action Record Data)
    (plain : ∀ conn, action ≠ .savepoint conn)
    (growing : (Trans.step s.system action).Growing (root iTable))
    (cached : s.sqlite3BtreeCachedRowidGet iTable = 0 ∨
      (Trans.step s.system action).Bounds (root iTable) (s.sqlite3BtreeCachedRowidGet iTable))
    (fresh : ∀ conn rowid, (s.cursor conn).phase.generated? = some rowid →
      rowid ∉ (Trans.step s.system action).tables (root iTable)) :
    RowidSystem.Lawful iTable { s with system := Trans.step s.system action } where
  aligned := step_aligned action lawful.aligned
  plain := lawful.plain.step action plain
  locked := rowsLocked_step action lawful.aligned lawful.plain lawful.locked
  growing := growing
  cached := cached
  fresh := fresh

end

/-- The end of a transaction. -/
theorem RowidSystem.Lawful.finish {system : System layout Data}
    (lawful : RowidSystem.Lawful iTable { s with system := system }) (conn : Conn) :
    (s.finish conn system).Lawful iTable :=
  lawful.forget rfl rfl (Cache.CachedRowids.get_reset _ _ _ s.pCachedRowid iTable)

/-- The next critical section. -/
theorem RowidSystem.Lawful.next (lawful : s.Lawful iTable) (high : KeepsCacheHigh iTable s conn) :
    (s.next iTable conn).2.Lawful iTable := by
  have keeps : ∀ phase : RowidPhase Data, phase.generated? = (s.cursor conn).phase.generated? →
      ∀ rowid, phase.generated? = some rowid → rowid ∉ s.system.tables (root iTable) := by
    intro phase same rowid has
    exact lawful.fresh conn rowid (same.symm.trans has)
  unfold RowidSystem.next
  cases phase : (s.cursor conn).phase with
  | idle => exact lawful
  | openGet =>
    refine lawful.move fun rowid has => ?_
    split_ifs at has
    all_goals cases has
  | openLast => exact lawful.move nofun
  | openSet rowid => exact (lawful.set (high.set rowid (by rw [phase]; rfl))).move nofun
  | newGet random data =>
    dsimp only
    split_ifs with useRandom max known
    · exact lawful.move nofun
    · exact lawful.move nofun
    · refine lawful.generate fun row inside => ?_
      have le := (lawful.cached.resolve_left known).shared row inside
      omega
    · exact lawful.move nofun
  | newLast random data =>
    cases last : s.system.lastAll conn (root iTable) with
    | none =>
      refine lawful.generate fun row inside => ?_
      obtain ⟨found, isLast, -⟩ := lawful.growing.le_lastAll conn inside
      exact absurd (last.symm.trans isLast) nofun
    | some found =>
      dsimp only
      split_ifs
      · exact lawful.move nofun
      · refine lawful.generate fun row inside => ?_
        obtain ⟨found', isLast, le⟩ := lawful.growing.le_lastAll conn inside
        have same : found = found' := Option.some.inj (last.symm.trans isLast)
        omega
  | newRandom random data =>
    dsimp only
    cases chosen : s.chooseRandom iTable conn random with
    | none => exact lawful.move nofun
    | some rowid =>
      refine lawful.generate fun row inside same => ?_
      unfold RowidSystem.chooseRandom at chosen
      have unseen := List.find?_some chosen
      rw [← same, Option.isNone_iff_eq_none] at unseen
      have seen := (lawful.growing.view_isSome conn).2 (Or.inr inside)
      rw [unseen] at seen
      cases seen
  | newSet row =>
    exact (lawful.set (high.set row.rowid (by rw [phase]; rfl))).move
      (keeps (.updateGet row) (by rw [phase]; rfl))
  | updateGet row | updateBelow row =>
    refine lawful.move (keeps _ ?_)
    rw [phase]
    split_ifs <;> rfl
  | updateSet row =>
    exact (lawful.set (high.set row.rowid (by rw [phase]; rfl))).move
      (keeps (.insert row) (by rw [phase]; rfl))
  | insert row =>
    have idle : (s.goto conn .idle).Lawful iTable := lawful.move nofun
    refine idle.act (.insertTable conn (root iTable) row.append row.shared (s.cursor conn).autoRowid
      row.rowid row.data) nofun (idle.growing.insertTable _ _ _ _ _) ?_ fun other rowid has => ?_
    · -- The row is not beyond the cached rowid, if there is one.
      by_cases unknown : s.sqlite3BtreeCachedRowidGet iTable = 0
      · exact Or.inl unknown
      · have below := (high.insert row phase).resolve_left unknown
        exact Or.inr ((lawful.cached.resolve_left unknown).insertTable below _ _ _ _)
    · rcases step_insertTable .. with same | ⟨tables, -⟩
      · rw [same]
        exact idle.fresh other rowid has
      · rw [tables]
        exact idle.fresh other rowid has

/-- Every step of a disciplined run. -/
theorem RowidSystem.Lawful.step (lawful : s.Lawful iTable) (action : RowidAction Data)
    (disciplined : RowidDiscipline iTable s action) :
    (RowidSystem.step iTable s action).Lawful iTable := by
  cases action with
  | openCursor conn | insertGenerated conn random data
  | insertExplicit conn append shared rowid data =>
    dsimp only [RowidSystem.step]
    split
    · exact lawful.move nofun
    · exact lawful
  | next conn => exact lawful.next disciplined
  | tableLock call => exact lawful.forget rfl rfl (Or.inr rfl)
  | commit conn =>
    dsimp only [RowidSystem.step]
    split
    case h_2 => exact lawful
    case h_1 phase =>
      have others : ∀ other, other ≠ conn →
          (Trans.step s.system (.commit conn)).trans other = s.system.trans other :=
        fun _ apart => step_others s.system (.commit conn) apart
      refine RowidSystem.Lawful.finish (lawful.act (.commit conn) nofun ?_ ?_ ?_) conn
      · refine lawful.growing.finished commit_idle others ?_
        exact fun row inside => lawful.growing.mem_commit.2 (Or.inr inside)
      · refine lawful.cached.imp_right fun bounds => ?_
        exact bounds.finished commit_idle others fun row inside =>
          lawful.growing.mem_commit.1 inside
      · intro other rowid has inside
        rcases lawful.growing.mem_commit.1 inside with committed | before
        · by_cases same : other = conn
          · rw [same, phase] at has
            cases has
          · exact disciplined other same (by rw [has]; exact nofun) rowid committed
        · exact lawful.fresh other rowid has before
  | rollback conn =>
    have idle : (s.goto conn .idle).Lawful iTable := lawful.move nofun
    have others : ∀ other, other ≠ conn →
        (Trans.step s.system (.rollback conn)).trans other = s.system.trans other :=
      fun _ apart => step_others s.system (.rollback conn) apart
    refine RowidSystem.Lawful.finish (idle.act (.rollback conn) nofun ?_ ?_ idle.fresh) conn
    · exact lawful.growing.finished rollback_idle others fun row inside => inside
    · refine lawful.cached.imp_right fun bounds => ?_
      exact bounds.finished rollback_idle others fun row inside => Or.inr inside

end Steps

/-- In every state of a disciplined run, the insertion of a generated rowid that succeeds is of a
rowid that is neither in the shared tree nor in the insertion tree of another connection. -/
theorem generated_rowid_fresh (iTable : Cache.Table) (tables : RootPage → ExtTreeMap Int Data)
    (indexes : (t : RootPage) → ExtTreeMap Record Unit (layout.cmp t)) (tableLocks : TableArea)
    (pCachedRowid : Cache.CachedRowids layout.lock.table.nElement)
    (high : pCachedRowid.get iTable = 0 ∨
      ∀ row ∈ tables (root iTable), row ≤ pCachedRowid.get iTable)
    (actions : List (RowidAction Data))
    (disciplined : Guarded (RowidSystem.step iTable) (RowidDiscipline iTable)
      (RowidSystem.init tables indexes tableLocks pCachedRowid) actions)
    (conn : Conn) (row : NewRow Data) (generated : row.generated = true)
    (inserts : ((run (RowidSystem.step iTable)
      (RowidSystem.init tables indexes tableLocks pCachedRowid) actions).cursor conn).phase =
        .insert row)
    (succeeds : ((run (RowidSystem.step iTable)
      (RowidSystem.init tables indexes tableLocks pCachedRowid) actions).next iTable conn).1 = .ok) :
    let s := (run (RowidSystem.step iTable)
      (RowidSystem.init tables indexes tableLocks pCachedRowid) actions).system
    row.rowid ∉ s.tables (root iTable) ∧
      ∀ other, other ≠ conn → row.rowid ∉ ((s.trans other).trees.tables (root iTable)).ins := by
  have lawful : (run (RowidSystem.step iTable)
      (RowidSystem.init tables indexes tableLocks pCachedRowid) actions).Lawful iTable := by
    apply disciplined.invariant (P := RowidSystem.Lawful iTable)
    · exact fun s action lawful disciplined => lawful.step action disciplined
    · refine ⟨init_aligned tables indexes, fun _ => rfl, fun conn => ⟨?_, .nil⟩, ?_, ?_, nofun⟩
      · exact fun t row writes => absurd writes (idle_writes_no_row t row)
      · exact fun conn row deleted => absurd deleted not_mem_empty
      · refine high.imp_right fun above => ⟨above, fun conn row inserted => ?_⟩
        exact absurd inserted not_mem_empty
  generalize run (RowidSystem.step iTable)
    (RowidSystem.init tables indexes tableLocks pCachedRowid) actions = s
    at lawful inserts succeeds ⊢
  refine ⟨lawful.fresh conn row.rowid ?_, fun other apart inserted => ?_⟩
  · rw [inserts]
    simp only [RowidPhase.generated?, RowidPhase.row?, Option.filter_some, generated, if_true,
      Option.map_some]
  · -- The row of another connection is locked, and the request for its lock is refused.
    have held := (lawful.locked other).now (root iTable) row.rowid (Or.inl inserted)
    have answered : (s.system.sqlite3TransBtreeInsertTable conn (root iTable) row.append row.shared
        (s.cursor conn).autoRowid row.rowid row.data).1 = .ok := by
      unfold RowidSystem.next at succeeds
      rw [inserts] at succeeds
      exact succeeds
    rcases insertTable_holder answered with free | mine
    · exact absurd (free.symm.trans held) nofun
    · exact apart (Subtype.ext (Option.some.inj (held.symm.trans mine)))

/-- The table of the concrete runs. -/
def cachedTwo : Cache.Table := ⟨2, by decide⟩

/-- Five slots in each area. -/
def rowidLayout : Layout Nat :=
  { smallLayout with
    lock := ⟨rowConfig 5 (by decide), tableConfig 5 (by decide), smallConfig.record⟩ }

/-- An empty table, no table locks and an empty cache. -/
def emptyTable : RowidSystem rowidLayout Unit :=
  .init (fun _ => ∅) (fun _ => ∅) tableClassInitArea
    ⟨Cache.tableClassInitArea _, _, Cache.represents_init _⟩

/-- A connection locks the table for writing and opens a cursor. -/
def openTable (conn : Conn) (steps : Nat) : List (RowidAction Unit) :=
  .tableLock (.lock conn tableTwo .write .normal) :: .openCursor conn ::
    List.replicate steps (.next conn)

/-- A connection generates a rowid and is about to insert it. -/
def generate (conn : Conn) (steps : Nat) : List (RowidAction Unit) :=
  .insertGenerated conn id () :: List.replicate steps (.next conn)

/-- A inserts a generated rowid, and B generates the next. -/
def generateTwo : List (RowidAction Unit) :=
  openTable connA 3 ++ generate connA 7 ++ openTable connB 1 ++ generate connB 5

/-- The rowid that B inserts is not the one of A. -/
theorem generated_rowid_fresh_one :
    let s := run (RowidSystem.step cachedTwo) emptyTable generateTwo
    Guarded (RowidSystem.step cachedTwo) (RowidDiscipline cachedTwo) emptyTable generateTwo ∧
    (RowidSystem.generatedRow 2 ()).generated = true ∧
    (s.cursor connB).phase = .insert (RowidSystem.generatedRow 2 ()) ∧
    (s.next cachedTwo connB).1 = .ok ∧
    1 ∈ ((s.system.trans connA).trees.tables tableTwo).ins ∧
    2 ∉ s.system.tables tableTwo ∧
      ∀ other, other ≠ connB → 2 ∉ ((s.system.trans other).trees.tables tableTwo).ins := by
  intro s
  have disciplined : Guarded (RowidSystem.step cachedTwo) (RowidDiscipline cachedTwo) emptyTable
      generateTwo := by
    have two : (run (RowidSystem.step cachedTwo) emptyTable
        (generateTwo.take 13)).system.Bounds tableTwo 2 := by
      refine ⟨fun row inside => absurd inside not_mem_empty, fun conn row inserted => ?_⟩
      by_cases mine : conn = connA
      · subst mine
        have rows : ∀ row ∈ (((run (RowidSystem.step cachedTwo) emptyTable
          (generateTwo.take 13)).system.trans connA).trees.tables tableTwo).ins.keys, row ≤ 2 := by
          decide +kernel
        exact rows row (mem_keys.2 inserted)
      · have idle := step_others emptyTable.system
          (.insertTable connA tableTwo true false true 1 ()) mine
        exact absurd (idle ▸ inserted) not_mem_empty
    have none : ∀ rowid, emptyTable.system.Bounds tableTwo rowid := fun _ =>
      ⟨fun row inside => absurd inside not_mem_empty,
        fun conn row inserted => absurd inserted not_mem_empty⟩
    refine ⟨trivial, trivial, ⟨nofun, nofun⟩, ⟨nofun, nofun⟩, ⟨?_, nofun⟩, trivial, ⟨nofun, nofun⟩,
      ⟨nofun, nofun⟩, ⟨?_, nofun⟩, ⟨nofun, nofun⟩, ⟨nofun, nofun⟩, ⟨?_, nofun⟩, ⟨nofun, ?_⟩,
      trivial, trivial, ⟨nofun, nofun⟩, trivial, ⟨nofun, nofun⟩, ⟨?_, nofun⟩, ⟨nofun, nofun⟩,
      ⟨nofun, nofun⟩, ⟨?_, nofun⟩, trivial⟩
    · exact fun _ has => Or.inl (Option.some.inj has).symm
    · exact fun _ _ => Or.inr (none _)
    · exact fun _ _ => Or.inr (none _)
    · rintro _ ⟨⟩
      exact Or.inr (by decide +kernel)
    · rintro _ ⟨⟩
      exact Or.inr two
    · rintro _ ⟨⟩
      exact Or.inr two
  have succeeds : (s.next cachedTwo connB).1 = .ok := by decide +kernel
  exact ⟨disciplined, rfl, rfl, succeeds, by decide +kernel, generated_rowid_fresh cachedTwo _ _ _ _
    (Or.inl (by decide +kernel)) _ disciplined connB (RowidSystem.generatedRow 2 ()) rfl rfl succeeds⟩

/-- B inserts rowid 2 while none is cached, A inserts the generated rowid 1, and B commits. A's
table lock keeps the cached rowid, and A generates 2 next. -/
def generateCommitted : List (RowidAction Unit) :=
  openTable connA 3 ++ openTable connB 3 ++
    [.insertExplicit connB false true 2 (), .next connB, .next connB] ++
    generate connA 7 ++ [.commit connB] ++ generate connA 5

/-- A generated rowid is inserted that is in the shared tree. -/
theorem generated_rowid_committed :
    let s := run (RowidSystem.step cachedTwo) emptyTable generateCommitted
    1 ∈ ((s.system.trans connA).trees.tables tableTwo).ins ∧
      (s.cursor connA).phase = .insert (RowidSystem.generatedRow 2 ()) ∧
      (s.next cachedTwo connA).1 = .ok ∧ 2 ∈ s.system.tables tableTwo := by
  exact ⟨by decide +kernel, rfl, by decide +kernel, by decide +kernel⟩

end SQLumDash.Trans
