import SQLumDash.Ipc.IpcClass

/-!
# The row-lock area

One entry per locked row. Every function runs under the area's mutex, so a call is one atomic step.
-/

namespace SQLumDash.Ipc

/-- `RowElement`. A slot with table zero is empty. -/
structure RowElement where
  hash : Nat
  iTable : Int
  rowid : Int
  pid : Nat
  owner : Nat
  deriving DecidableEq, Repr

/-- The size of an area and its hash. -/
structure RowConfig where
  nElement : Nat
  xCalcHash : Int → Int → Nat
  /-- One slot always stays empty. -/
  two_le : 2 ≤ nElement
  hash_lt : ∀ iTable rowid, xCalcHash iTable rowid < nElement

/-- The little-endian bytes of a two's complement integer. -/
def leBytes (width : Nat) (value : Int) : List Nat :=
  (List.range width).map fun i => ((value % 2 ^ (8 * width)).toNat / 2 ^ (8 * i)) % 256

/-- `rowlockIpcCalcHash`: hashing over bytes in 64-bit arithmetic. -/
def rowlockIpcCalcHash (nBucket : Nat) (buf : List Nat) : Nat :=
  buf.foldl (fun h c => (h + c) % 2 ^ 64 * 0x9e3779b1 % 2 ^ 64) 0 % nBucket

/-- The hash is a slot. -/
theorem rowlockIpcCalcHash_lt {nBucket : Nat} {buf : List Nat} (two_le : 2 ≤ nBucket) :
    rowlockIpcCalcHash nBucket buf < nBucket := Nat.mod_lt _ (by omega)

/-- `rowClassCalcHash`, over root page and rowid. -/
def rowClassCalcHash (nElement : Nat) (iTable rowid : Int) : Nat :=
  rowlockIpcCalcHash nElement (leBytes 4 iTable ++ leBytes 8 rowid)

/-- An area under the hash of the source. -/
def rowConfig (nElement : Nat) (two_le : 2 ≤ nElement) : RowConfig where
  nElement := nElement
  xCalcHash := rowClassCalcHash nElement
  two_le := two_le
  hash_lt _ _ := rowlockIpcCalcHash_lt two_le

/-- The area behind `RowMetaData`. -/
abbrev RowArea := LockArea RowElement

/-- A slot as `memset` and `rowClassElemClear` leave it. -/
def RowElement.zero : RowElement := ⟨0, 0, 0, 0, 0⟩

/-- `rowClassInitArea`. -/
def rowClassInitArea : RowArea := ⟨0, fun _ => RowElement.zero⟩

/-- The callbacks of `IPC_CLASS_ROW`. -/
def rowClass : IpcClass RowElement where
  xElemIsValid elem := decide (elem.iTable ≠ 0)
  xElemIsTarget elem target := decide (elem.iTable = target.iTable ∧ elem.rowid = target.rowid)
  xElemHash elem := elem.hash
  xElemClear _ := RowElement.zero
  xElemCopy _ src := src

/-- A zeroed element with only the key set. -/
def rowlockTarget (iTable rowid : Int) : RowElement := { RowElement.zero with iTable, rowid }

section

variable (cfg : RowConfig)

/-- The search that every function starts with. -/
def rowSearch (area : RowArea) (iTable rowid : Int) : Search :=
  rowlockIpcSearch rowClass cfg.nElement area.pElement (rowlockTarget iTable rowid)
    (cfg.xCalcHash iTable rowid)

/-- `rowlockIpcRowValueSet` at the slot of the search. -/
def rowlockIpcRowValueSet (area : RowArea) (idx : Nat) (pHandle : Handle) (iTable rowid : Int) :
    Nat → RowElement :=
  Function.update area.pElement idx
    ⟨cfg.xCalcHash iTable rowid, iTable, rowid, pHandle.pid, pHandle.owner⟩

/-- Whether an element was stored under this handle. -/
def RowElement.heldBy (elem : RowElement) (pHandle : Handle) : Prop :=
  elem.pid = pHandle.pid ∧ elem.owner = pHandle.owner

instance (elem : RowElement) (pHandle : Handle) : Decidable (elem.heldBy pHandle) :=
  inferInstanceAs (Decidable (_ ∧ _))

/-- `sqlite3rowlockIpcLockRecord`. -/
def sqlite3rowlockIpcLockRecord (pHandle : Handle) (area : RowArea) (iTable rowid : Int) :
    Rc × RowArea :=
  match rowSearch cfg area iTable rowid with
  | .found idx =>
    if (area.pElement idx).heldBy pHandle then (.done, area) else (.locked, area)
  | .full => (.nomem, area)
  | .free idx =>
    if area.count ≥ cfg.nElement - 1 then (.nomem, area)
    else (.ok, ⟨area.count + 1, rowlockIpcRowValueSet cfg area idx pHandle iTable rowid⟩)

/-- `sqlite3rowlockIpcLockRecordQuery`. -/
def sqlite3rowlockIpcLockRecordQuery (pHandle : Handle) (area : RowArea) (iTable rowid : Int) :
    Rc :=
  match rowSearch cfg area iTable rowid with
  | .full => .ok
  | .found idx => if (area.pElement idx).heldBy pHandle then .ok else .locked
  | .free _ => .ok

/-- `sqlite3rowlockIpcUnlockRecord`, by the key alone. -/
def sqlite3rowlockIpcUnlockRecord (area : RowArea) (iTable rowid : Int) : RowArea :=
  let hash := cfg.xCalcHash iTable rowid
  if rowClass.xElemIsValid (area.pElement hash) then
    match rowSearch cfg area iTable rowid with
    | .found idxDel => removeSlot rowClass cfg.nElement area hash idxDel
    | _ => area
  else
    area

/-- The inner loop of `sqlite3rowlockIpcUnlockRecordProcCore`: unlock one slot while it is the
handle's. Zero matches every entry. -/
def recordSlotLoop (pHandle : Handle) (idx : Nat) : Nat → RowArea → RowArea
  | 0, area => area
  | fuel + 1, area =>
    let elem := area.pElement idx
    if rowClass.xElemIsValid elem ∧ (pHandle.pid = 0 ∨ elem.pid = pHandle.pid) ∧
        (pHandle.owner = 0 ∨ elem.owner = pHandle.owner) then
      recordSlotLoop pHandle idx fuel (sqlite3rowlockIpcUnlockRecord cfg area elem.iTable elem.rowid)
    else
      area

/-- `sqlite3rowlockIpcUnlockRecordProcCore`. -/
def sqlite3rowlockIpcUnlockRecordProcCore (pHandle : Handle) (area : RowArea) : RowArea :=
  unlockProcCore rowClass cfg.nElement
    (fun idx area => recordSlotLoop cfg pHandle idx cfg.nElement area) area

/-- `sqlite3rowlockIpcUnlockRecordProc` -/
def sqlite3rowlockIpcUnlockRecordProc (pHandle : Handle) (area : RowArea) : RowArea :=
  sqlite3rowlockIpcUnlockRecordProcCore cfg pHandle area

end

end SQLumDash.Ipc
