import SQLumDash.Lib.Outcome
import SQLumDash.Stores

/-!
# The row-lock cleaner

The tool releases every lock by three calls, with zero for the process and the owner. The functions
are given with their assertions, and with loops that need not end: the inner loop stops only when
its slot no longer matches. The first two calls open the mapped files and close them; the last
process that closes them removes them.
-/

namespace SQLumDash.Cleaner

open Ipc Psm

section Assertions

variable {Elem : Type} (xClass : IpcClass Elem) (nElem : Nat)

/-- The walk back arrives at slot zero, where its assertion is. -/
def procStartFails (area : LockArea Elem) : Nat → Nat → Bool
  | 0, _ => false
  | fuel + 1, idxStart =>
    if xClass.xElemIsValid (area.pElement idxStart) then
      let idxStart := xIndexPrev nElem idxStart
      if idxStart = 0 then true else procStartFails area fuel idxStart
    else
      false

/-- The search arrives at the hash, where its assertion is. -/
def emptyFails (data : Nat → Elem) (hash : Nat) : Nat → Nat → Bool
  | 0, _ => false
  | fuel + 1, idx =>
    if xClass.xElemIsValid (data idx) then
      let idx := xIndexNext nElem idx
      if idx = hash then true else emptyFails data hash fuel idx
    else
      false

/-- The assertion of `rowlockIpcDelete` on its slots fails. -/
def deleteFails : Nat → (Nat → Elem) → Nat → Nat → Nat → Bool
  | 0, _, _, _, _ => false
  | fuel + 1, data, idxStart, idxDel, idxEnd =>
    let idxStart := xIndexNext nElem
      (startLoop xClass nElem data idxEnd nElem (xIndexPrev nElem idxStart))
    let idx := moverLoop nElem (xIsTarget xClass data idxStart idxDel idxEnd) idxDel nElem idxEnd
    if (idxStart ≤ idxDel ∧ idxDel ≤ idxEnd) ∨ (idxEnd ≤ idxStart ∧ idxStart ≤ idxDel) ∨
        (idxDel ≤ idxEnd ∧ idxEnd ≤ idxStart) then
      if idx = idxDel then false
      else
        deleteFails fuel
          (Function.update data idxDel (xClass.xElemCopy (data idxDel) (data idx)))
          idxStart idx idxEnd
    else
      true

/-- `removeSlot` with its assertions. -/
def removeSlotChecked (debug : Bool) (area : LockArea Elem) (hash idxDel : Nat) :
    Outcome (LockArea Elem) :=
  let idxEmpty := emptyLoop xClass nElem area.pElement hash nElem (xIndexNext nElem idxDel)
  .check debug (!emptyFails xClass nElem area.pElement hash nElem (xIndexNext nElem idxDel)) <|
  .check debug (!deleteFails xClass nElem nElem area.pElement hash idxDel
    (xIndexPrev nElem idxEmpty)) <|
  .returns (removeSlot xClass nElem area hash idxDel)

/-- The outer loop of a release, once around the ring. -/
def ringLoop (slot : Nat → LockArea Elem → Outcome (LockArea Elem)) (idxStart : Nat) :
    Nat → Nat → LockArea Elem → Outcome (LockArea Elem)
  | 0, _, _ => .runs
  | fuel + 1, idx, area =>
    (slot idx area).andThen fun area =>
      let idx := xIndexPrev nElem idx
      if idx = idxStart then .returns area else ringLoop slot idxStart fuel idx area

/-- A release with its assertions and loops. -/
def releaseAll (debug : Bool) (fuel : Nat)
    (slot : Nat → LockArea Elem → Outcome (LockArea Elem)) (area : LockArea Elem) :
    Outcome (LockArea Elem) :=
  let idxStart := procStartLoop xClass nElem area nElem (nElem - 1)
  .check debug (!procStartFails xClass nElem area nElem (nElem - 1)) <|
  ringLoop nElem slot idxStart fuel idxStart area

end Assertions

section

variable (cfg : RowConfig) (debug : Bool)

/-- `sqlite3rowlockIpcUnlockRecord` with its assertions. -/
def unlockRecord (area : RowArea) (iTable rowid : Int) : Outcome RowArea :=
  let hash := cfg.xCalcHash iTable rowid
  if rowClass.xElemIsValid (area.pElement hash) then
    match rowSearch cfg area iTable rowid with
    | .found idxDel => removeSlotChecked rowClass cfg.nElement debug area hash idxDel
    | _ => .returns area
  else
    .returns area

/-- The inner loop of `sqlite3rowlockIpcUnlockRecordProcCore`. -/
def recordProcSlot (pHandle : Handle) (fuel idx : Nat) : RowArea → Outcome RowArea :=
  .whileLoop (fun area => rowClass.xElemIsValid (area.pElement idx) &&
      decide ((area.pElement idx).releasedBy pHandle))
    (fun area => unlockRecord cfg debug area (area.pElement idx).iTable (area.pElement idx).rowid)
    fuel

/-- `sqlite3rowlockIpcUnlockRecordProcCore` -/
def unlockRecordProc (fuel : Nat) (pHandle : Handle) (area : RowArea) : Outcome RowArea :=
  releaseAll rowClass cfg.nElement debug fuel (recordProcSlot cfg debug pHandle fuel) area

/-- `sqlite3rowlockIpcUnlockRecordAll`: zero matches every entry. -/
def sqlite3rowlockIpcUnlockRecordAll (fuel : Nat) (area : RowArea) : Outcome RowArea :=
  unlockRecordProc cfg debug fuel ⟨0, 0⟩ area

end

/-- `sqlite3rowlockIpcUnlockTableCore` with its assertions. -/
def unlockTableCore (cfg : TableConfig) (debug : Bool) (pHandle : Handle) (area : TableArea)
    (iTable : Int) (mode : UnlockMode) : Outcome TableArea :=
  let hash := cfg.xCalcHash iTable
  if tableClass.xElemIsValid (area.pElement hash) then
    match rowlockIpcSearch tableClass cfg.nElement area.pElement (tablelockTarget pHandle iTable)
      hash with
    | .found idxDel =>
      if mode = .trans ∨ (area.pElement idxDel).eLock = .read then
        removeSlotChecked tableClass cfg.nElement debug area hash idxDel
      else
        .check debug (!emptyFails tableClass cfg.nElement area.pElement hash cfg.nElement
          (xIndexNext cfg.nElement idxDel)) <|
        .returns ⟨area.count, Function.update area.pElement idxDel
          { area.pElement idxDel with inUse := false }⟩
    | _ => .returns area
  else
    .returns area

/-- The inner loop of `sqlite3rowlockIpcUnlockTablesProcCore`. -/
def tableProcSlot (cfg : TableConfig) (debug : Bool) (pHandle : Handle) (pid : Nat)
    (mode : UnlockMode) : Nat → Nat → TableArea → Outcome TableArea
  | 0, _, _ => .runs
  | fuel + 1, idx, area =>
    let elem := area.pElement idx
    if tableClass.xElemIsValid elem ∧ (pid = 0 ∨ elem.pid = pid) ∧
        (pHandle.owner = 0 ∨ elem.owner = pHandle.owner) then
      (unlockTableCore cfg debug pHandle area elem.iTable mode).andThen fun area =>
        if mode = .stmt ∧ (area.pElement idx).inUse = false then .returns area
        else tableProcSlot cfg debug pHandle pid mode fuel idx area
    else
      .returns area

/-- `sqlite3rowlockIpcUnlockTablesProcCore` -/
def unlockTablesProcCore (cfg : TableConfig) (debug : Bool) (fuel : Nat) (pHandle : Handle)
    (pid : Nat) (mode : UnlockMode) (area : TableArea) : Outcome TableArea :=
  releaseAll tableClass cfg.nElement debug fuel (tableProcSlot cfg debug pHandle pid mode fuel) area

/-- `sqlite3rowlockIpcUnlockTablesAll`. The loop takes zero for the process, but its unlock the
calling process. -/
def sqlite3rowlockIpcUnlockTablesAll (cfg : TableConfig) (debug : Bool) (self fuel : Nat)
    (area : TableArea) : Outcome TableArea :=
  unlockTablesProcCore cfg debug fuel ⟨self, 0⟩ 0 .trans area

variable {Key : Type}

/-- `sqlite3rowlockPsmUnlockRecordAll`. The first assertion excludes zero for both. -/
def sqlite3rowlockPsmUnlockRecordAll (cls : RecordClass Key) (debug : Bool) (fuel : Nat)
    (pList : PsmList Key) : Outcome (PsmList Key) :=
  let pid := 0
  let owner := 0
  .check debug (pid != 0 || owner != 0) <|
  match sqlite3rowlockPsmUnlockRecordProcCore cls.blobHash pid owner fuel pList with
  | some pList => .returns pList
  | none => .runs

/-- `sqlite3rowlockIpcFinish` of the cleaner. It releases its own locks, and `rowlockOsMmapClose`
removes the files if no other process has them open. -/
def sqlite3rowlockIpcFinish (cfg : Config Key) (debug opened : Bool) (self fuel : Nat)
    (rows : RowArea) (tables : TableArea) : Outcome (RowArea × TableArea) :=
  (unlockRecordProc cfg.row debug fuel ⟨self, 0⟩ rows).andThen fun rows =>
  (unlockTablesProcCore cfg.table debug fuel ⟨self, 0⟩ self .trans tables).andThen fun tables =>
  .returns (if opened then (rows, tables) else (rowClassInitArea, tableClassInitArea))

/-- `main` of `rowlock_cleaner`, as a process with this number. -/
def rowlockCleaner (cfg : Config Key) (debug opened : Bool) (self fuel : Nat)
    (stores : Stores Key) : Outcome (Stores Key) :=
  (sqlite3rowlockIpcUnlockRecordAll cfg.row debug fuel stores.rows).andThen fun rows =>
  (sqlite3rowlockIpcFinish cfg debug opened self fuel rows stores.tables).andThen fun first =>
  (sqlite3rowlockIpcUnlockTablesAll cfg.table debug self fuel first.2).andThen fun tables =>
  (sqlite3rowlockIpcFinish cfg debug opened self fuel first.1 tables).andThen fun second =>
  (sqlite3rowlockPsmUnlockRecordAll cfg.record debug fuel stores.indexes).andThen fun indexes =>
  .returns ⟨second.1, second.2, indexes⟩

end SQLumDash.Cleaner
