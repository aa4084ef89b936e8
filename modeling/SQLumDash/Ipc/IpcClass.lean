import SQLumDash.Basic
import SQLumDash.Lib.Probing
import Mathlib.Logic.Function.Basic

/-!
# Lock areas in shared memory

Row locks and table locks are kept in open-addressing arrays that every process maps, and driven by
one table of callbacks. A loop that runs over the ring is given the number of slots as fuel; the
proofs show that it never runs out.
-/

namespace SQLumDash.Ipc

/-- The callbacks of a kind of element. -/
structure IpcClass (Elem : Type) where
  xElemIsValid : Elem → Bool
  xElemIsTarget : Elem → Elem → Bool
  xElemHash : Elem → Nat
  xElemClear : Elem → Elem
  /-- The first slot after the second is copied over it. -/
  xElemCopy : Elem → Elem → Elem

/-- `rowClassIndexPrev` and `tableClassIndexPrev`. -/
def xIndexPrev (nElem idx : Nat) : Nat := (idx + nElem - 1) % nElem

/-- `rowClassIndexNext` and `tableClassIndexNext`. -/
def xIndexNext (nElem idx : Nat) : Nat := (idx + 1) % nElem

/-- Outcome of `rowlockIpcSearch`, with its slot. -/
inductive Search where
  /-- `SQLITE_LOCKED`: the slot holds the target. -/
  | found (idx : Nat)
  /-- `SQLITE_OK`: the slot is where the target would be stored. -/
  | free (idx : Nat)
  /-- `SQLITE_NOMEM`: every slot was visited. -/
  | full
  deriving DecidableEq, Repr

section Loops

variable {Elem : Type} (xClass : IpcClass Elem) (nElem : Nat)

/-- The loop of `rowlockIpcSearch`. -/
def searchLoop (data : Nat → Elem) (target : Elem) (hash : Nat) : Nat → Nat → Search
  | 0, _ => .full
  | fuel + 1, idx =>
    if xClass.xElemIsValid (data idx) then
      if xClass.xElemIsTarget (data idx) target then
        .found idx
      else
        let idx := xIndexNext nElem idx
        if idx = hash then .full else searchLoop data target hash fuel idx
    else
      .free idx

/-- `rowlockIpcSearch`: from the hash to the target or an empty slot. -/
def rowlockIpcSearch (data : Nat → Elem) (target : Elem) (hash : Nat) : Search :=
  searchLoop xClass nElem data target hash nElem hash

/-- An unlock looks for the first empty slot after its entry. -/
def emptyLoop (data : Nat → Elem) (hash : Nat) : Nat → Nat → Nat
  | 0, idx => idx
  | fuel + 1, idx =>
    if xClass.xElemIsValid (data idx) then
      let idx := xIndexNext nElem idx
      if idx = hash then idx else emptyLoop data hash fuel idx
    else
      idx

/-- The first loop of `rowlockIpcDelete`, back to the slot before the cluster. -/
def startLoop (data : Nat → Elem) (idxEnd : Nat) : Nat → Nat → Nat
  | 0, idx => idx
  | fuel + 1, idx =>
    if xClass.xElemIsValid (data idx) then
      let idx := xIndexPrev nElem idx
      if idx = idxEnd then idx else startLoop data idxEnd fuel idx
    else
      idx

/-- `isTargetPattern1and2`. -/
def isTargetPattern1and2 (data : Nat → Elem) (idxStart idxDel idx : Nat) : Bool :=
  let hash := xClass.xElemHash (data idx)
  decide (idxStart ≤ hash ∧ hash ≤ idxDel)

/-- `isTargetPattern3`. -/
def isTargetPattern3 (data : Nat → Elem) (idxStart idxDel idx : Nat) : Bool :=
  let hash := xClass.xElemHash (data idx)
  decide (hash ≤ idxDel ∨ idxStart ≤ hash)

/-- The choice of `xIsTarget` in `rowlockIpcDelete`. -/
def xIsTarget (data : Nat → Elem) (idxStart idxDel idxEnd : Nat) : Nat → Bool :=
  if (idxStart ≤ idxDel ∧ idxDel ≤ idxEnd) ∨ (idxEnd ≤ idxStart ∧ idxStart ≤ idxDel) then
    isTargetPattern1and2 xClass data idxStart idxDel
  else
    isTargetPattern3 xClass data idxStart idxDel

/-- The loop of `rowlockIpcDelete` from the end of the cluster back to the hole. -/
def moverLoop (isTarget : Nat → Bool) (idxDel : Nat) : Nat → Nat → Nat
  | 0, idx => idx
  | fuel + 1, idx =>
    if idx = idxDel then idx
    else if isTarget idx then idx
    else moverLoop isTarget idxDel fuel (xIndexPrev nElem idx)

/-- `rowlockIpcDelete`: fill the hole with the farthest element that may stand there, then delete
its slot. -/
def rowlockIpcDelete : Nat → (Nat → Elem) → Nat → Nat → Nat → (Nat → Elem)
  | 0, data, _, _, _ => data
  | fuel + 1, data, idxStart, idxDel, idxEnd =>
    let idxStart := xIndexNext nElem
      (startLoop xClass nElem data idxEnd nElem (xIndexPrev nElem idxStart))
    let idx := moverLoop nElem (xIsTarget xClass data idxStart idxDel idxEnd) idxDel nElem idxEnd
    if idx = idxDel then
      Function.update data idxDel (xClass.xElemClear (data idxDel))
    else
      rowlockIpcDelete fuel
        (Function.update data idxDel (xClass.xElemCopy (data idxDel) (data idx)))
        idxStart idx idxEnd

end Loops

/-- The number of entries (`count` for row locks, `nLock` for table locks) and the elements. -/
structure LockArea (Elem : Type) where
  count : Nat
  pElement : Nat → Elem

section Areas

variable {Elem : Type} (xClass : IpcClass Elem) (nElem : Nat)

/-- The tail of both unlock functions: find the end of the cluster, delete the slot and count one
less. -/
def removeSlot (area : LockArea Elem) (hash idxDel : Nat) : LockArea Elem :=
  let idxEmpty := emptyLoop xClass nElem area.pElement hash nElem (xIndexNext nElem idxDel)
  ⟨area.count - 1, rowlockIpcDelete xClass nElem nElem area.pElement hash idxDel
    (xIndexPrev nElem idxEmpty)⟩

/-- The first loop of both release functions, back to an empty slot. -/
def procStartLoop (area : LockArea Elem) : Nat → Nat → Nat
  | 0, idxStart => idxStart
  | fuel + 1, idxStart =>
    if xClass.xElemIsValid (area.pElement idxStart) then
      let idxStart := xIndexPrev nElem idxStart
      if idxStart = 0 then idxStart else procStartLoop area fuel idxStart
    else
      idxStart

/-- Their outer loop, once around the ring; `slot` is the work at one slot. -/
def procLoop (slot : Nat → LockArea Elem → LockArea Elem) (idxStart : Nat) :
    Nat → Nat → LockArea Elem → LockArea Elem
  | 0, _, area => area
  | fuel + 1, idx, area =>
    let area := slot idx area
    let idx := xIndexPrev nElem idx
    if idx = idxStart then area else procLoop slot idxStart fuel idx area

/-- Both release functions. -/
def unlockProcCore (slot : Nat → LockArea Elem → LockArea Elem) (area : LockArea Elem) :
    LockArea Elem :=
  let idxStart := procStartLoop xClass nElem area nElem (nElem - 1)
  procLoop nElem slot idxStart nElem idxStart area

end Areas

end SQLumDash.Ipc
