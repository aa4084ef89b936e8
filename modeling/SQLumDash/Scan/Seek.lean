import SQLumDash.Scan.Cursor
import Mathlib.Order.Compare
import Mathlib.Data.Fintype.Defs

/-!
# Seeking with a transaction cursor

`sqlite3BtreeMovetoUnpackedAll` seeks in the three trees and decides which cursor leads.
The vendored seek in one tree is a parameter: it lands on a matching entry, or on one of
the two neighbours of the key, and which one may depend on the tree and on the key in any
way. The row counting for index keys is part of the seek.
-/

namespace SQLumDash.Scan

open OrderedCursor

variable {α : Type*} [LinearOrder α]

/-- How the entries of a tree compare with a search key. -/
structure Probe (α : Type*) [LinearOrder α] where
  cmp : α → Ordering
  lt_of_le : ∀ a b, a ≤ b → cmp b = .lt → cmp a = .lt
  gt_of_le : ∀ a b, a ≤ b → cmp a = .gt → cmp b = .gt

/-- The comparison with a complete key. -/
def Probe.exact (key : α) : Probe α where
  cmp x := compare x key
  lt_of_le a b below small := by
    rw [compare_lt_iff_lt] at small ⊢
    exact lt_of_le_of_lt below small
  gt_of_le a b below large := by
    rw [compare_gt_iff_gt] at large ⊢
    exact lt_of_lt_of_le large below

/-- The order that `default_rc` gives to entries that agree with the key. -/
def defaultOrdering (default_rc : Int) : Ordering := compare default_rc 0

/-- The comparison of an unpacked record whose matching entries count as `default_rc` says. -/
def Probe.withDefault (record : Probe α) (default_rc : Int) : Probe α where
  cmp x := (record.cmp x).then (defaultOrdering default_rc)
  lt_of_le a b below small := by
    cases order : record.cmp b with
    | lt => rw [record.lt_of_le a b below order]; rfl
    | gt => rw [order] at small; cases small
    | eq =>
      rw [order] at small
      cases order' : record.cmp a with
      | lt => rfl
      | eq => exact small
      | gt =>
        rw [record.gt_of_le a b below order'] at order
        cases order
  gt_of_le a b below large := by
    cases order : record.cmp a with
    | gt => rw [record.gt_of_le a b below order]; rfl
    | lt => rw [order] at large; cases large
    | eq =>
      rw [order] at large
      cases order' : record.cmp b with
      | gt => rfl
      | eq => exact large
      | lt =>
        rw [record.lt_of_le a b below order'] at order
        cases order

/-- The key of a seek: a rowid, or an unpacked index record with its `default_rc`. -/
inductive SearchKey (α : Type*) [LinearOrder α] where
  | intKey (key : α)
  | idxKey (record : Probe α) (default_rc : Int)

/-- The comparison a seek makes. -/
def SearchKey.probe : SearchKey α → Probe α
  | .intKey key => Probe.exact key
  | .idxKey record default_rc => record.withDefault default_rc

/-- The opcode that asks for the seek. -/
inductive Opcode where
  | seekLT
  | seekLE
  | seekGE
  | seekGT
  /-- Any other opcode, such as `OP_NotExists` or `OP_Found`. -/
  | other
  /-- No opcode: the call does not come from the virtual machine. -/
  | zero
  deriving DecidableEq, Repr

namespace Opcode

/-- `OP_SeekGE` or `OP_SeekGT`. -/
def seeksUp : Opcode → Bool
  | seekGE | seekGT => true
  | _ => false

/-- `OP_SeekLE` or `OP_SeekLT`. -/
def seeksDown : Opcode → Bool
  | seekLE | seekLT => true
  | _ => false

end Opcode

/-- Where a seek may leave the cursor: on a matching entry, or next to the key with nothing
between; nowhere exactly in an empty tree. -/
def Landed (content : Finset α) (probe : Probe α) : Option α → Prop
  | none => content = ∅
  | some x => x ∈ content ∧
      match probe.cmp x with
      | .eq => True
      | .lt => ∀ y ∈ content, x < y → probe.cmp y = .gt
      | .gt => ∀ y ∈ content, y < x → probe.cmp y = .lt

/-- `sqlite3BtreeMovetoUnpacked`, of which only its comment is assumed. -/
structure MovetoUnpacked (α : Type*) [LinearOrder α] where
  land : Tree → Finset α → Probe α → Option α
  lands : ∀ tree content probe, Landed content probe (land tree content probe)

/-- The value a seek leaves in `*pRes`: the order of the entry it landed on. -/
def Probe.pRes (probe : Probe α) : Option α → Int
  | none => -1
  | some x =>
    match probe.cmp x with
    | .lt => -1
    | .eq => 0
    | .gt => 1

/-- The sign of the comparison of two entries, as `btreeKeyCompareCursors` gives it. -/
def keyCompare (a b : α) : Int :=
  match compare a b with
  | .lt => -1
  | .eq => 0
  | .gt => 1

/-- The `eqSeen` of a seek: the tree has an entry that agrees with the record. -/
def eqSeenIn (record : Probe α) (content : Finset α) : Bool :=
  decide (∃ x ∈ content, record.cmp x = .eq)

/-- `btreeCursorCountSameKey`, with the position it leaves the cursor at. -/
def btreeCursorCountSameKey (d : Dir) (content : Finset α) (record : Probe α) :
    Nat → Option α → Nat × Option α
  | 0, cursor => (0, cursor)
  | _ + 1, none => (0, none)
  | fuel + 1, some x =>
    if record.cmp x = .eq then
      let rest := btreeCursorCountSameKey d content record fuel (step d content x)
      (rest.1 + 1, rest.2)
    else
      (0, some x)

/-- Counting the matching entries of one tree from where a seek landed: a cursor that landed
on the other side of the key than `default_rc` says is moved over it first. -/
def countMatches (d : Dir) (content : Finset α) (record : Probe α) (default_rc : Int)
    (landed : Option α) (res : Int) (moveOver : Bool) : Nat × Option α :=
  let start := if moveOver ∧ res ≠ default_rc then advance d content landed else landed
  btreeCursorCountSameKey d content record (content.card + 1) start

variable (moveto : MovetoUnpacked α) (ov : Overlay α)

/-- The counting of matching shared and deleted entries: whether some matching shared entry
is not deleted, and where the deletion cursor is left. -/
def seekCount (opcode : Opcode) (record : Probe α) (default_rc : Int) (pCur : Option α)
    (res : Int) : Bool × Option α :=
  let d := if opcode.seeksUp then .forward else .backward
  let onMatch := pCur.any fun x => record.cmp x = .eq
  let count := (countMatches d ov.shared record default_rc pCur res !onMatch).1
  let probe := record.withDefault default_rc
  let landedDel := moveto.land .del ov.del probe
  let countDel :=
    if eqSeenIn record ov.del then
      countMatches d ov.del record default_rc landedDel (probe.pRes landedDel) true
    else
      (0, landedDel)
  (decide (count > countDel.1), countDel.2)

/-- `btreeIsDeleted`: seek the deletion cursor to the entry the shared cursor stands on. -/
def btreeIsDeleted (c : BtCursor α) : BtCursor α × Int :=
  match c.pCur with
  | none => (c, -1)
  | some key =>
    let landed := moveto.land .del ov.del (Probe.exact key)
    ({ c with pCurDel := landed }, (Probe.exact key).pRes landed)

/-- The part of `sqlite3BtreeMovetoUnpackedAll` that leaves a deleted entry: first forward,
and when nothing is left there, backward from the key. -/
def leaveDeleted (probe : Probe α) (c : BtCursor α) : BtCursor α × Int :=
  let forward := btreeSeekToExist ov .forward { c with pCur := advance .forward ov.shared c.pCur }
  if forward.pCur.isSome then
    (forward, 1)
  else
    let again := moveto.land .shared ov.shared probe
    (btreeSeekToExist ov .backward { forward with pCur := advance .backward ov.shared again }, -1)

/-- `direction` of `sqlite3BtreeMovetoSameSide`. -/
def Opcode.direction (opcode : Opcode) : Int := if opcode.seeksUp then 1 else -1

/-- The order in which a cursor is moved for an opcode. -/
def Opcode.dir (opcode : Opcode) : Dir := if opcode.seeksUp then .forward else .backward

/-- The decision table at the end of `sqlite3BtreeMovetoSameSide`. -/
def chooseSide (direction res resIns resCmp : Int) : CursorUse × Int :=
  if res * resIns < 0 then
    (if direction * resCmp < 0 then .useTrans else .useShared, direction)
  else if res < 0 then
    (if direction * resCmp < 0 then .useTrans else .useShared, res)
  else
    (if direction * resCmp < 0 then .useShared else .useTrans, res)

/-- The comparison of the two positions, both of which stand on entries here. -/
def cursorCompare (c : BtCursor α) : Int :=
  match c.pCur, c.pCurIns with
  | some key, some inserted => keyCompare key inserted
  | _, _ => 0

/-- `sqlite3BtreeMovetoSameSide`. -/
def sqlite3BtreeMovetoSameSide (opcode : Opcode) (c : BtCursor α) (res resIns : Int) :
    BtCursor α × Int :=
  let direction := opcode.direction
  if res * resIns < 0 then
    if direction * res < 0 then
      let c := btreeSeekToExist ov opcode.dir
        { c with pCur := advance opcode.dir ov.shared c.pCur }
      if c.pCur.isNone then
        ({ c with state := .useTrans }, direction)
      else
        let side := chooseSide direction res resIns (cursorCompare c)
        ({ c with state := side.1 }, side.2)
    else
      let c := { c with pCurIns := advance opcode.dir ov.ins c.pCurIns }
      if c.pCurIns.isNone then
        ({ c with state := .useShared }, direction)
      else
        let side := chooseSide direction res resIns (cursorCompare c)
        ({ c with state := side.1 }, side.2)
  else
    let side := chooseSide direction res resIns (cursorCompare c)
    ({ c with state := side.1 }, side.2)

section

variable (key : SearchKey α)

/-- Whether a matching shared entry is visible, as far as the counting of index entries tells,
and where it leaves the deletion cursor. -/
def seekEqSeen (opcode : Opcode) (landed : Option α) (pCurDel : Option α) : Bool × Option α :=
  match key with
  | .intKey _ => (false, pCurDel)
  | .idxKey record default_rc =>
    if eqSeenIn record ov.shared ∧ default_rc ≠ 0 then
      seekCount moveto ov opcode record default_rc landed (key.probe.pRes landed)
    else
      (eqSeenIn record ov.shared, pCurDel)

/-- Whether the counted `eqSeen` survives when the entry landed on is deleted. -/
def SearchKey.keepsEqSeen (shared : Finset α) : Bool :=
  match key with
  | .intKey _ => false
  | .idxKey record default_rc => eqSeenIn record shared && decide (default_rc ≠ 0)

/-- The check of the entry landed on: where the shared and the deletion cursor end, the order
of the former, and whether the entry was deleted. -/
def settleShared (probe : Probe α) (opcode : Opcode) (c : BtCursor α) : BtCursor α × Int × Bool :=
  let checked := btreeIsDeleted moveto ov c
  if checked.2 = 0 ∧ opcode ≠ .zero then
    let left := leaveDeleted moveto ov probe checked.1
    (left.1, left.2, true)
  else
    (checked.1, probe.pRes c.pCur, false)

/-- The part of `sqlite3BtreeMovetoUnpackedAll` up to the seek in the insertion tree: where
the shared and the deletion cursor stand, the order of the former, and whether a matching
shared entry is visible. -/
def seekShared (opcode : Opcode) (c : BtCursor α) : BtCursor α × Int × Bool :=
  let landed := moveto.land .shared ov.shared key.probe
  let counted := seekEqSeen moveto ov key opcode landed c.pCurDel
  let c := { c with pCur := landed, pCurDel := counted.2 }
  if ov.deleteAll then
    ({ c with pCur := none }, -1, false)
  else
    let settled := settleShared moveto ov key.probe opcode c
    (settled.1, settled.2.1, counted.1 && (!settled.2.2 || key.keepsEqSeen ov.shared))

/-- The choice of the leading cursor once all three trees have been searched. -/
def chooseCursor (opcode : Opcode) (c : BtCursor α) (res resIns : Int)
    (eqSeen eqSeenIns : Bool) : BtCursor α × Int :=
  if eqSeen ∨ eqSeenIns ∨ resIns = 0 ∨ res = 0 then
    if eqSeenIns ∨ resIns = 0 then
      let pCur :=
        if res < 0 ∧ opcode.seeksUp then advance .forward ov.shared c.pCur
        else if res > 0 ∧ opcode.seeksDown then advance .backward ov.shared c.pCur
        else c.pCur
      ({ c with pCur := pCur, state := .useTrans }, resIns)
    else
      let pCurIns :=
        if resIns < 0 ∧ opcode.seeksUp then advance .forward ov.ins c.pCurIns
        else if resIns > 0 ∧ opcode.seeksDown then advance .backward ov.ins c.pCurIns
        else c.pCurIns
      ({ c with pCurIns := pCurIns, state := .useShared }, res)
  else
    match c.pCur, c.pCurIns with
    | some _, some _ =>
      if opcode.seeksUp ∨ opcode.seeksDown then
        sqlite3BtreeMovetoSameSide ov opcode (btreeIsDeleted moveto ov c).1 res resIns
      else
        ({ c with state := .useShared }, res)
    | some _, none => ({ c with state := .useShared }, res)
    | none, _ => ({ c with state := .useTrans }, resIns)

/-- The last step of `sqlite3BtreeMovetoUnpackedAll`: for `OP_SeekGE` a deletion cursor that
stands nowhere is sought again. -/
def refetchDel (probe : Probe α) (opcode : Opcode) (pCurDel : Option α) : Option α :=
  if pCurDel.isNone ∧ opcode = .seekGE then moveto.land .del ov.del probe else pCurDel

/-- Whether the insertion tree has an entry that agrees with an index key. -/
def SearchKey.eqSeenIns (ins : Finset α) : Bool :=
  match key with
  | .intKey _ => false
  | .idxKey record _ => eqSeenIn record ins

/-- `sqlite3BtreeMovetoUnpackedAll` on a cursor whose transaction trees are in use: the
cursor, `*pRes` and the final `eqSeen`. -/
def sqlite3BtreeMovetoUnpackedAll (opcode : Opcode) (c : BtCursor α) : BtCursor α × Int × Nat :=
  let shared := seekShared moveto ov key opcode c
  let landedIns := moveto.land .ins ov.ins key.probe
  let eqSeenIns := key.eqSeenIns ov.ins
  let chosen := chooseCursor moveto ov opcode { shared.1 with pCurIns := landedIns } shared.2.1
    (key.probe.pRes landedIns) shared.2.2 eqSeenIns
  ({ chosen.1 with pCurDel := refetchDel moveto ov key.probe opcode chosen.1.pCurDel }, chosen.2,
    shared.2.2.toNat + eqSeenIns.toNat)

/-- Whether `OP_SeekGE` and its kin step once before the scan: the seek ended on the wrong side
of the key, or on the key itself where that is excluded. -/
def Opcode.stepsOff (opcode : Opcode) (res : Int) : Bool :=
  if opcode.seeksUp then res < 0 ∨ (res = 0 ∧ opcode = .seekGT)
  else res > 0 ∨ (res = 0 ∧ opcode = .seekLT)

/-- The rest of a scan after its seek: one step if `off`, then step to the end. -/
def scanFrom (d : Dir) (off : Bool) (c : BtCursor α) : Option (List (Visit α)) :=
  let fuel := ov.shared.card + ov.ins.card + 1
  if off then
    match sqlite3BtreeAdvanceAll ov d c with
    | (c, .ok) => visits ov d fuel c
    | _ => some []
  else
    visits ov d fuel c

/-- The range scan of the virtual machine: seek, one conditional step, then step to the end. -/
def rangeScan (opcode : Opcode) (c : BtCursor α) : Option (List (Visit α)) :=
  let sought := sqlite3BtreeMovetoUnpackedAll moveto ov key opcode c
  scanFrom ov opcode.dir (opcode.stepsOff sought.2.1) sought.1

end

end SQLumDash.Scan
