import SQLumDash.Ipc.Row
import Mathlib.Order.Basic

/-!
# The table-lock area

One entry per table and connection, with the level of the lock and a flag that is set while a
statement works on the table. All entries of a table share one hash. Copying and clearing an element
leave the flag of its slot alone.
-/

namespace SQLumDash.Ipc

open Function

/-- Levels of a table lock. -/
inductive TableLock where
  /-- `NOT_LOCKED` -/
  | notLocked
  /-- `READ_LOCK` -/
  | read
  /-- `WRITE_LOCK` -/
  | write
  /-- `WRITEEX_LOCK` -/
  | writeEx
  /-- `EXCLSV_LOCK` -/
  | exclsv
  deriving DecidableEq, Repr

/-- The number the source gives to a level. -/
def TableLock.level : TableLock → Nat
  | .notLocked => 0
  | .read => 1
  | .write => 2
  | .writeEx => 3
  | .exclsv => 4

/-- The level a number stands for. -/
def TableLock.ofNumber : Nat → TableLock
  | 1 => .read
  | 2 => .write
  | 3 => .writeEx
  | 4 => .exclsv
  | _ => .notLocked

/-- Modes of `sqlite3rowlockIpcLockTable`. -/
inductive LockMode where
  /-- `MODE_LOCK_NORMAL` -/
  | normal
  /-- `MODE_LOCK_COMMIT` -/
  | commit
  /-- `MODE_LOCK_FORCE` -/
  | force
  /-- Any other number. -/
  | other
  deriving DecidableEq, Repr

/-- The number of `MODE_LOCK_FORCE`. -/
def modeLockForce : Nat := 2

/-- The mode a number stands for. -/
def LockMode.ofNumber : Nat → LockMode
  | 0 => .normal
  | 1 => .commit
  | 2 => .force
  | _ => .other

/-- Modes of `sqlite3rowlockIpcUnlockTableCore`. -/
inductive UnlockMode where
  /-- `MODE_UNLOCK_TRANS` -/
  | trans
  /-- `MODE_UNLOCK_STMT` -/
  | stmt
  deriving DecidableEq, Repr

/-- `TableElement`. A slot with table zero is empty. -/
structure TableElement where
  hash : Nat
  iTable : Int
  pid : Nat
  owner : Nat
  eLock : TableLock
  /-- A statement of the owner works on the table. -/
  inUse : Bool
  deriving DecidableEq, Repr

/-- The size of an area and its hash. -/
structure TableConfig where
  nElement : Nat
  xCalcHash : Int → Nat
  /-- One slot always stays empty. -/
  two_le : 2 ≤ nElement
  hash_lt : ∀ iTable, xCalcHash iTable < nElement

/-- `tableClassCalcHash`: the bytes of the root page. -/
def tableClassCalcHash (nElement : Nat) (iTable : Int) : Nat :=
  rowlockIpcCalcHash nElement (leBytes 4 iTable)

/-- An area under the hash of the source. -/
def tableConfig (nElement : Nat) (two_le : 2 ≤ nElement) : TableConfig where
  nElement := nElement
  xCalcHash := tableClassCalcHash nElement
  two_le := two_le
  hash_lt _ := rowlockIpcCalcHash_lt two_le

/-- The area behind `TableMetaData`. -/
abbrev TableArea := LockArea TableElement

/-- A slot as `memset` leaves it. -/
def TableElement.zero : TableElement := ⟨0, 0, 0, 0, .notLocked, false⟩

/-- `tableClassInitArea`, without the cached rowids. -/
def tableClassInitArea : TableArea := ⟨0, fun _ => TableElement.zero⟩

/-- The callbacks of `IPC_CLASS_TABLE`. Zero matches every entry. -/
def tableClass : IpcClass TableElement where
  xElemIsValid elem := decide (elem.iTable ≠ 0)
  xElemIsTarget elem target := decide (elem.iTable = target.iTable ∧
    (elem.owner = 0 ∨ target.owner = 0 ∨ elem.owner = target.owner) ∧
    (elem.pid = 0 ∨ target.pid = 0 ∨ elem.pid = target.pid))
  xElemHash elem := elem.hash
  xElemClear elem := { TableElement.zero with inUse := elem.inUse }
  xElemCopy dest src := { src with inUse := dest.inUse }

/-- Whether an element was stored under this handle. -/
def TableElement.heldBy (elem : TableElement) (pHandle : Handle) : Prop :=
  elem.pid = pHandle.pid ∧ elem.owner = pHandle.owner

instance (elem : TableElement) (pHandle : Handle) : Decidable (elem.heldBy pHandle) :=
  inferInstanceAs (Decidable (_ ∧ _))

/-- Whether another handle's entry stands in the way. -/
def TableElement.refuses (elem : TableElement) (eLock : TableLock) (mode : LockMode) : Prop :=
  if elem.iTable = schemaRoot then
    elem.eLock = .write ∨ (elem.eLock = .read ∧ eLock = .write)
  else
    elem.eLock = .exclsv ∨
      (mode = .normal ∧ TableLock.write.level ≤ elem.eLock.level ∧
        TableLock.writeEx.level ≤ eLock.level) ∨
      (mode = .normal ∧ TableLock.writeEx.level ≤ elem.eLock.level ∧
        TableLock.write.level ≤ eLock.level) ∨
      (mode = .commit ∧ elem.inUse = true)

instance (elem : TableElement) (eLock : TableLock) (mode : LockMode) :
    Decidable (elem.refuses eLock mode) := by
  unfold TableElement.refuses
  infer_instance

/-- What one entry on the way of a request amounts to. -/
inductive Verdict where
  /-- Another table's, or not in the way. -/
  | pass
  /-- The handle's, at a lower level. -/
  | own
  /-- The handle's, to be overwritten. -/
  | force
  /-- The handle's, at a sufficient level. -/
  | held
  /-- Another handle's, in the way. -/
  | refuse
  deriving DecidableEq, Repr

/-- The body of the loop of `sqlite3rowlockIpcLockTable`. -/
def TableElement.verdict (elem : TableElement) (pHandle : Handle) (iTable : Int)
    (eLock : TableLock) (mode : LockMode) : Verdict :=
  if elem.iTable = iTable then
    if elem.heldBy pHandle then
      if mode = .force then .force
      else if eLock.level ≤ elem.eLock.level then .held
      else .own
    else if elem.refuses eLock mode then .refuse
    else .pass
  else
    .pass

/-- How the loop of `sqlite3rowlockIpcLockTable` ends. -/
inductive LockScan where
  /-- The handle has the lock already. -/
  | held
  /-- The level of this slot is overwritten. -/
  | force (idx : Nat)
  /-- `SQLITE_LOCKED` -/
  | refused
  /-- Every slot was visited. -/
  | full
  /-- An empty slot; the handle's own slot if one was passed. -/
  | stop (idx : Nat) (own : Option Nat)
  deriving DecidableEq, Repr

section

variable (cfg : TableConfig)

/-- The loop of `sqlite3rowlockIpcLockTable`. -/
def lockTableLoop (data : Nat → TableElement) (pHandle : Handle) (iTable : Int)
    (eLock : TableLock) (mode : LockMode) : Nat → Nat → Option Nat → LockScan
  | 0, _, _ => .full
  | fuel + 1, idx, own =>
    if tableClass.xElemIsValid (data idx) then
      match (data idx).verdict pHandle iTable eLock mode with
      | .force => .force idx
      | .held => .held
      | .refuse => .refused
      | verdict =>
        let own := if verdict = .own then some idx else own
        let idx := xIndexNext cfg.nElement idx
        if idx = cfg.xCalcHash iTable then .full
        else lockTableLoop data pHandle iTable eLock mode fuel idx own
    else
      .stop idx own

/-- `rowlockIpcTableValueSet`. -/
def rowlockIpcTableValueSet (data : Nat → TableElement) (idx : Nat) (pHandle : Handle)
    (iTable : Int) (eLock : TableLock) : Nat → TableElement :=
  update data idx ⟨cfg.xCalcHash iTable, iTable, pHandle.pid, pHandle.owner, eLock, true⟩

/-- `sqlite3rowlockIpcLockTable`: answer, area, and `prevLock` where it is written. -/
def sqlite3rowlockIpcLockTable (pHandle : Handle) (area : TableArea) (iTable : Int)
    (eLock : TableLock) (mode : LockMode) : Rc × TableArea × Option TableLock :=
  match lockTableLoop cfg area.pElement pHandle iTable eLock mode cfg.nElement
    (cfg.xCalcHash iTable) none with
  | .held => (.ok, area, none)
  | .force idx => (.ok, ⟨area.count, update area.pElement idx
      { area.pElement idx with eLock := eLock }⟩, none)
  | .refused => (.locked, area, none)
  | .full => (.nomem, area, none)
  | .stop idx own =>
    let iidx := own.getD idx
    if area.count ≥ cfg.nElement - 1 then
      (.nomem, area, none)
    else
      (.ok, ⟨if own.isNone then area.count + 1 else area.count,
        rowlockIpcTableValueSet cfg area.pElement iidx pHandle iTable eLock⟩,
        some (area.pElement iidx).eLock)

/-- The search target of an unlock. -/
def tablelockTarget (pHandle : Handle) (iTable : Int) : TableElement :=
  { TableElement.zero with iTable, owner := pHandle.owner, pid := pHandle.pid }

/-- `sqlite3rowlockIpcLockTableQuery`. The process of the target is zero, so that the same owner in
another process matches. -/
def sqlite3rowlockIpcLockTableQuery (pHandle : Handle) (area : TableArea) (iTable : Int) :
    TableLock :=
  let hash := cfg.xCalcHash iTable
  if tableClass.xElemIsValid (area.pElement hash) then
    match rowlockIpcSearch tableClass cfg.nElement area.pElement
      (tablelockTarget ⟨0, pHandle.owner⟩ iTable) hash with
    | .found idx => (area.pElement idx).eLock
    | _ => .notLocked
  else
    .notLocked

/-- `sqlite3rowlockIpcUnlockTableCore`. The end of a statement only resets the flag, unless it is a
read lock. -/
def sqlite3rowlockIpcUnlockTableCore (pHandle : Handle) (area : TableArea) (iTable : Int)
    (mode : UnlockMode) : TableArea :=
  let hash := cfg.xCalcHash iTable
  if tableClass.xElemIsValid (area.pElement hash) then
    match rowlockIpcSearch tableClass cfg.nElement area.pElement (tablelockTarget pHandle iTable)
      hash with
    | .found idxDel =>
      if mode = .trans ∨ (area.pElement idxDel).eLock = .read then
        removeSlot tableClass cfg.nElement area hash idxDel
      else
        ⟨area.count, update area.pElement idxDel
          { area.pElement idxDel with inUse := false }⟩
    | _ => area
  else
    area

/-- The inner loop of `sqlite3rowlockIpcUnlockTablesProcCore`. -/
def tableSlotLoop (pHandle : Handle) (pid : Nat) (mode : UnlockMode) (idx : Nat) :
    Nat → TableArea → TableArea
  | 0, area => area
  | fuel + 1, area =>
    let elem := area.pElement idx
    if tableClass.xElemIsValid elem ∧ (pid = 0 ∨ elem.pid = pid) ∧
        (pHandle.owner = 0 ∨ elem.owner = pHandle.owner) then
      let area := sqlite3rowlockIpcUnlockTableCore cfg pHandle area elem.iTable mode
      if mode = .stmt ∧ (area.pElement idx).inUse = false then area
      else tableSlotLoop pHandle pid mode idx fuel area
    else
      area

/-- `sqlite3rowlockIpcUnlockTablesProcCore`. -/
def sqlite3rowlockIpcUnlockTablesProcCore (pHandle : Handle) (pid : Nat) (mode : UnlockMode)
    (area : TableArea) : TableArea :=
  unlockProcCore tableClass cfg.nElement
    (fun idx area => tableSlotLoop cfg pHandle pid mode idx cfg.nElement area) area

/-- `sqlite3rowlockIpcUnlockTablesProc` -/
def sqlite3rowlockIpcUnlockTablesProc (pHandle : Handle) (area : TableArea) : TableArea :=
  sqlite3rowlockIpcUnlockTablesProcCore cfg pHandle pHandle.pid .trans area

/-- `sqlite3rowlockIpcUnlockTablesStmtProc` -/
def sqlite3rowlockIpcUnlockTablesStmtProc (pHandle : Handle) (area : TableArea) : TableArea :=
  sqlite3rowlockIpcUnlockTablesProcCore cfg pHandle pHandle.pid .stmt area

end

end SQLumDash.Ipc
