import SQLumDash.Ipc.CacheReset
import SQLumDash.Trans.System

/-!
# Generated rowids

The connections share a cache with the largest rowid of each table, zero if not known. A generated
rowid is the one after the cached rowid, or after the last row that the connection sees if none is
cached. Every step is one critical section: the cache is read, the table is searched, the cache is
set and the row is inserted in separate steps, between which other connections act. A connection
works with one cursor at a time.
-/

namespace SQLumDash.Trans

open Ipc Savepoint Std

/-- The root page of a cached table. -/
def root (iTable : Cache.Table) : RootPage := ⟨iTable.1, iTable.2.1⟩

/-- `MAX_ROWID` -/
def maxRowid : Int := 2 ^ 63 - 1

/-- A rowid from eight random bytes. -/
def randomRowid (bytes : Nat) : Int := (bytes % 2 ^ 62 : Nat) + 1

/-- A row on its way into the table. -/
structure NewRow (Data : Type) where
  generated : Bool
  /-- `OPFLAG_APPEND` -/
  append : Bool
  /-- `CURSOR_USE_SHARED` of the cursor. -/
  shared : Bool
  rowid : Int
  data : Data

/-- What a cursor does next. -/
inductive RowidPhase (Data : Type) where
  | idle
  /-- `sqlite3BtreeCachedRowidSetByOpenCursor` reads the cache. -/
  | openGet
  | openLast
  | openSet (rowid : Int)
  /-- `ROWLOCK_CACHED_ROWID_NEW_ROWID` reads the cache. -/
  | newGet (random : Nat → Nat) (data : Data)
  | newLast (random : Nat → Nat) (data : Data)
  | newRandom (random : Nat → Nat) (data : Data)
  /-- `ROWLOCK_CACHED_ROWID_SET` -/
  | newSet (row : NewRow Data)
  /-- `ROWLOCK_CACHED_ROWID_UPDATE` asks whether a rowid is cached. -/
  | updateGet (row : NewRow Data)
  /-- Is the cached rowid below the inserted one? -/
  | updateBelow (row : NewRow Data)
  | updateSet (row : NewRow Data)
  /-- `sqlite3TransBtreeInsert` -/
  | insert (row : NewRow Data)

/-- The row that is on its way. -/
def RowidPhase.row? {Data : Type} : RowidPhase Data → Option (NewRow Data)
  | .newSet row => some row
  | .updateGet row => some row
  | .updateBelow row => some row
  | .updateSet row => some row
  | .insert row => some row
  | _ => none

/-- The generated rowid that is not inserted yet. -/
def RowidPhase.generated? {Data : Type} (phase : RowidPhase Data) : Option Int :=
  (phase.row?.filter NewRow.generated).map NewRow.rowid

/-- The rowid that is about to be cached. -/
def RowidPhase.sets? {Data : Type} : RowidPhase Data → Option Int
  | .openSet rowid => some rowid
  | .newSet row => some row.rowid
  | .updateSet row => some row.rowid
  | _ => none

/-- The cursor of a connection. -/
structure RowidCursor (Data : Type) where
  phase : RowidPhase Data
  useRandomRowid : Bool
  autoRowid : Bool

/-- Transactions, table locks, cache and cursors. -/
structure RowidSystem {Record : Type} (layout : Layout Record) (Data : Type) where
  system : System layout Data
  tableLocks : TableArea
  pCachedRowid : Cache.CachedRowids layout.lock.table.nElement
  cursor : Conn → RowidCursor Data

/-- A step on a table. -/
inductive RowidAction (Data : Type) where
  | openCursor (conn : Conn)
  | insertGenerated (conn : Conn) (random : Nat → Nat) (data : Data)
  | insertExplicit (conn : Conn) (append shared : Bool) (rowid : Int) (data : Data)
  /-- The next critical section of the cursor. -/
  | next (conn : Conn)
  | tableLock (call : TableCall)
  | commit (conn : Conn)
  | rollback (conn : Conn)

variable {Record Data : Type} {layout : Layout Record}

/-- The row to which `sqlite3BtreeLastAll` moves. -/
def System.lastAll (s : System layout Data) (conn : Conn) (iTable : RootPage) : Option Int :=
  let pending := (s.trans conn).trees.tables iTable
  (pending.ins.keys ++ (s.tables iTable).keys.filter fun rowid => !pending.del.contains rowid).max?

namespace RowidSystem

variable (iTable : Cache.Table) (s : RowidSystem layout Data) (conn : Conn)

/-- `sqlite3BtreeCachedRowidGet` -/
def sqlite3BtreeCachedRowidGet : Int := s.pCachedRowid.get iTable

/-- `sqlite3BtreeCachedRowidSet`. A full cache stays as it is. -/
def sqlite3BtreeCachedRowidSet (rowid : Int) : RowidSystem layout Data :=
  { s with pCachedRowid := s.pCachedRowid.set iTable rowid }

/-- Another state of the cursor of a connection. -/
def setCursor (cursor : RowidCursor Data) : RowidSystem layout Data :=
  { s with cursor := Function.update s.cursor conn cursor }

/-- The cursor goes on with another phase. -/
def goto (phase : RowidPhase Data) : RowidSystem layout Data :=
  s.setCursor conn { s.cursor conn with phase := phase }

/-- The cursor generates random rowids from now on. -/
def gotoRandom (random : Nat → Nat) (data : Data) : RowidSystem layout Data :=
  s.setCursor conn ⟨.newRandom random data, true, (s.cursor conn).autoRowid⟩

/-- The row under a rowid that was generated. -/
def generatedRow (rowid : Int) (data : Data) : NewRow Data := ⟨true, true, false, rowid, data⟩

/-- The first of a hundred random rowids that is not seen. -/
def chooseRandom (random : Nat → Nat) : Option Int :=
  let pending := (s.system.trans conn).trees.tables (root iTable)
  ((List.range 100).map fun round => randomRowid (random round)).find? fun rowid =>
    (pending.view (s.system.tables (root iTable)) rowid).isNone

/-- The next critical section. -/
def next : Rc × RowidSystem layout Data :=
  let cached := s.sqlite3BtreeCachedRowidGet iTable
  match (s.cursor conn).phase with
  | .idle => (.ok, s)
  | .openGet => (.ok, s.goto conn (if cached ≠ 0 then .idle else .openLast))
  | .openLast => (.ok, s.goto conn (.openSet ((s.system.lastAll conn (root iTable)).getD 0)))
  | .openSet rowid => (.ok, (s.sqlite3BtreeCachedRowidSet iTable rowid).goto conn .idle)
  | .newGet random data =>
    if (s.cursor conn).useRandomRowid then (.ok, s.goto conn (.newRandom random data))
    else if cached = maxRowid then (.ok, s.gotoRandom conn random data)
    else if cached ≠ 0 then (.ok, s.goto conn (.newSet (generatedRow (cached + 1) data)))
    else (.ok, s.goto conn (.newLast random data))
  | .newLast random data =>
    match s.system.lastAll conn (root iTable) with
    | none => (.ok, s.goto conn (.newSet (generatedRow 1 data)))
    | some rowid =>
      if rowid = maxRowid then (.ok, s.gotoRandom conn random data)
      else (.ok, s.goto conn (.newSet (generatedRow (rowid + 1) data)))
  | .newRandom random data =>
    match s.chooseRandom iTable conn random with
    -- `SQLITE_FULL`
    | none => (.error, s.goto conn .idle)
    | some rowid => (.ok, s.goto conn (.newSet (generatedRow rowid data)))
  | .newSet row => (.ok, (s.sqlite3BtreeCachedRowidSet iTable row.rowid).goto conn (.updateGet row))
  | .updateGet row => (.ok, s.goto conn (if cached ≠ 0 then .updateBelow row else .insert row))
  | .updateBelow row =>
    (.ok, s.goto conn (if cached ≤ row.rowid then .updateSet row else .insert row))
  | .updateSet row => (.ok, (s.sqlite3BtreeCachedRowidSet iTable row.rowid).goto conn (.insert row))
  | .insert row =>
    let result := s.system.sqlite3TransBtreeInsertTable conn (root iTable) row.append row.shared
      (s.cursor conn).autoRowid row.rowid row.data
    (result.1, { s.goto conn .idle with system := result.2 })

/-- The end of a transaction: its table locks go, and the cache is reset. -/
def finish (system : System layout Data) : RowidSystem layout Data :=
  let tableLocks := sqlite3rowlockIpcUnlockTablesProc layout.lock.table conn.1 s.tableLocks
  { s with
    system := system
    tableLocks := tableLocks
    pCachedRowid := .reset layout.lock.table conn.1 tableLocks s.pCachedRowid }

/-- The state after a step. A busy cursor goes on, unless it is rolled back. -/
def step (s : RowidSystem layout Data) : RowidAction Data → RowidSystem layout Data
  | .openCursor conn =>
    match (s.cursor conn).phase with
    | .idle => s.setCursor conn ⟨.openGet, false, false⟩
    | _ => s
  | .insertGenerated conn random data =>
    match (s.cursor conn).phase with
    | .idle => s.setCursor conn ⟨.newGet random data, (s.cursor conn).useRandomRowid, true⟩
    | _ => s
  | .insertExplicit conn append shared rowid data =>
    match (s.cursor conn).phase with
    | .idle => s.goto conn (.updateGet ⟨false, append, shared, rowid, data⟩)
    | _ => s
  | .next conn => (s.next iTable conn).2
  | .commit conn =>
    match (s.cursor conn).phase with
    | .idle => s.finish conn (Trans.step s.system (.commit conn))
    | _ => s
  | .rollback conn => (s.goto conn .idle).finish conn (Trans.step s.system (.rollback conn))
  | .tableLock call => { s with tableLocks := call.perform layout.lock.table s.tableLocks }

/-- Before the first transaction, with any table locks and cache. -/
def init (tables : RootPage → ExtTreeMap Int Data)
    (indexes : (t : RootPage) → ExtTreeMap Record Unit (layout.cmp t)) (tableLocks : TableArea)
    (pCachedRowid : Cache.CachedRowids layout.lock.table.nElement) : RowidSystem layout Data :=
  ⟨.init tables indexes, tableLocks, pCachedRowid, fun _ => ⟨.idle, false, false⟩⟩

end RowidSystem

end SQLumDash.Trans
