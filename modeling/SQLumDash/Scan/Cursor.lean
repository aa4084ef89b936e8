import SQLumDash.Basic
import SQLumDash.Lib.OrderedCursor

/-!
# Cursors of a transaction

A transaction sees a table or an index through three trees: the shared one, the entries
it inserted and the entries it deleted. A cursor is a triple of positions in them with a
note which one leads. The functions below move such a cursor; entries are elements of a
linear order, so that rowid tables and indexes share them. Entries compare by that order:
the check of rowid order in the source cannot fail while differences do not overflow.
-/

namespace SQLumDash.Scan

open OrderedCursor

/-- Which cursor leads: `CURSOR_USE_SHARED` or `CURSOR_USE_TRANS`. -/
inductive CursorUse where
  | useShared
  | useTrans
  deriving DecidableEq, Repr

/-- The three trees behind a cursor. -/
inductive Tree where
  | shared
  | ins
  | del
  deriving DecidableEq, Repr

/-- The contents of the three trees of one table or index, under the overlay invariant. -/
structure Overlay (α : Type*) [LinearOrder α] where
  shared : Finset α
  ins : Finset α
  del : Finset α
  deleteAll : Bool
  /-- Only shared entries are deleted. -/
  del_subset : del ⊆ shared
  /-- An inserted entry is not a shared one unless that one is deleted. -/
  ins_disjoint : Disjoint ins (shared \ del)

/-- `BtCursor` with its `BtCursorTrans`: each position, or nothing for an invalid cursor. -/
structure BtCursor (α : Type*) where
  pCur : Option α
  pCurIns : Option α
  pCurDel : Option α
  state : CursorUse
  deriving DecidableEq

/-- An entry as a scan shows it: its key and the tree it is read from. -/
structure Visit (α : Type*) where
  use : CursorUse
  key : α
  deriving DecidableEq, Repr

section Moves

variable {α : Type*} [LinearOrder α]

/-- The entry the cursor shows. -/
def BtCursor.current (c : BtCursor α) : Option (Visit α) :=
  match c.state with
  | .useShared => c.pCur.map (Visit.mk .useShared)
  | .useTrans => c.pCurIns.map (Visit.mk .useTrans)

/-- The loop of `btreeSeekToExist` on the positions in the shared and the deletion tree. -/
def seekToExistLoop (d : Dir) (shared del : Finset α) :
    Nat → Option α → Option α → Option α × Option α
  | 0, pCur, pCurDel => (pCur, pCurDel)
  | fuel + 1, some key, some deleted =>
    if d.lt deleted key then
      seekToExistLoop d shared del fuel (some key) (step d del deleted)
    else if key = deleted then
      seekToExistLoop d shared del fuel (step d shared key) (some deleted)
    else
      (some key, some deleted)
  | _ + 1, pCur, pCurDel => (pCur, pCurDel)

variable (ov : Overlay α)

/-- `btreeSeekToExist`: move the shared cursor off deleted entries. -/
def btreeSeekToExist (d : Dir) (c : BtCursor α) : BtCursor α :=
  let moved := seekToExistLoop d ov.shared ov.del (ov.shared.card + ov.del.card + 1)
    c.pCur c.pCurDel
  { c with pCur := moved.1, pCurDel := moved.2 }

/-- The choice of the leading cursor in `btreeSeekToExistAll`; nothing leads when neither
cursor stands on an entry. -/
def leader (d : Dir) (pCur pCurIns : Option α) : Option CursorUse :=
  match pCur, pCurIns with
  | some key, some inserted =>
    if key = inserted ∨ d.lt key inserted then some .useShared else some .useTrans
  | some _, none => some .useShared
  | none, some _ => some .useTrans
  | none, none => none

/-- `btreeSeekToExistAll`: skip deleted entries, then choose the cursor that leads. -/
def btreeSeekToExistAll (d : Dir) (c : BtCursor α) : BtCursor α × Rc :=
  let c := btreeSeekToExist ov d c
  match leader d c.pCur c.pCurIns with
  | some use => ({ c with state := use }, .ok)
  | none => (c, .done)

/-- The first loop of `sqlite3BtreeAdvanceAll`: the cursor that does not lead catches up
with the one that does. -/
def catchUp (d : Dir) (c : BtCursor α) : BtCursor α :=
  match c.state, c.pCur, c.pCurIns with
  | .useShared, some key, _ =>
    { c with pCurIns := advanceWhile d ov.ins (d.lt · key) (ov.ins.card + 1) c.pCurIns }
  | .useTrans, _, some key =>
    { c with pCur := advanceWhile d ov.shared (d.lt · key) (ov.shared.card + 1) c.pCur }
  | _, _, _ => c

/-- `sqlite3BtreeAdvanceAll`; `sqlite3BtreeNextAll` and `sqlite3BtreePreviousAll` are its two
directions. -/
def sqlite3BtreeAdvanceAll (d : Dir) (c : BtCursor α) : BtCursor α × Rc :=
  let c := catchUp ov d c
  let c := match c.state with
    | .useShared => { c with pCur := advance d ov.shared c.pCur }
    | .useTrans => { c with pCurIns := advance d ov.ins c.pCurIns }
  btreeSeekToExistAll ov d c

/-- `sqlite3BtreeFirstAll` (forward) and `sqlite3BtreeLastAll` (backward). -/
def sqlite3BtreeFirstAll (d : Dir) (state : CursorUse) : BtCursor α × Rc :=
  btreeSeekToExistAll ov d
    { pCur := if ov.deleteAll then none else first d ov.shared
      pCurIns := first d ov.ins
      pCurDel := first d ov.del
      state := state }

/-- What repeated advancing shows, starting with the entry the cursor stands on. Nothing
is returned when the fuel does not suffice. -/
def visits (d : Dir) : Nat → BtCursor α → Option (List (Visit α))
  | 0, _ => none
  | fuel + 1, c =>
    match c.current with
    | none => some []
    | some visit =>
      match sqlite3BtreeAdvanceAll ov d c with
      | (c, .ok) => (visits d fuel c).map (visit :: ·)
      | _ => some [visit]

end Moves

end SQLumDash.Scan
