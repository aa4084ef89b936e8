import SQLumDash.Scan.FullScan
import SQLumDash.Scan.ScanFaults
import Mathlib.Data.Finset.Insert

/-!
# Row operations of a transaction

A new row goes into the insertion tree, and a row of the shared tree that is deleted or replaced is
noted in the deletion tree. All locks are granted and every call into the b-tree layer succeeds. The
cursor is the one of `Scan.BtCursor` with two more states: after an insertion both bits of `state`
are set, and after the deletion of an inserted row its position is only remembered. Where the b-tree
layer leaves a cursor is a parameter.
-/

namespace SQLumDash.Change

open OrderedCursor Scan

/-- The trees of one table. -/
structure TableTrees (α Data : Type*) where
  shared : Finset α
  sharedData : α → Data
  ins : Finset α
  insData : α → Data
  del : Finset α
  /-- `deleteAll` of the `TransRootPage`. -/
  deleteAll : Bool

/-- Where the cursor of the insertion tree stands. -/
inductive Position (α : Type*) where
  /-- `CURSOR_VALID` -/
  | valid (key : α)
  /-- `CURSOR_REQUIRESEEK` or `CURSOR_SKIPNEXT`: the key of a deleted entry. -/
  | requireSeek (key : α)
  /-- `CURSOR_INVALID` -/
  | invalid
  deriving DecidableEq, Repr

/-- `BtCursor` with its `BtCursorTrans`. -/
structure RowCursor (α : Type*) where
  pCur : Option α
  pCurIns : Position α
  pCurDel : Option α
  /-- `CURSOR_USE_SHARED` -/
  sharedIsUsed : Bool
  /-- `CURSOR_USE_TRANS` -/
  transIsUsed : Bool
  deriving DecidableEq

/-- A row as a cursor shows it. -/
structure Row (α Data : Type*) where
  use : CursorUse
  key : α
  data : Data
  deriving DecidableEq

/-- Where the b-tree layer leaves its cursors: a seek next to the key, an insertion anywhere. -/
structure Vendored (α : Type*) [LinearOrder α] extends MovetoUnpacked α where
  place : Finset α → α → Option α
  /-- It is an entry of the tree. -/
  places : ∀ content key x, place content key = some x → x ∈ insert key content

/-- Insertions leave the cursor nowhere. -/
def Vendored.lost {α : Type*} [LinearOrder α] : Vendored α where
  toMovetoUnpacked := .ofSide fun _ => .forward
  place _ _ := none
  places _ _ _ absurd := nomatch absurd

namespace Position

variable {α : Type*}

/-- The entry of a cursor for which `btreeCursorIsPointing`. -/
def entry : Position α → Option α
  | valid key => some key
  | _ => none

/-- The position on an entry, if there is one. -/
def ofOption : Option α → Position α
  | some key => valid key
  | none => invalid

/-- A valid position is an entry. -/
theorem ofOption_eq_valid {cursor : Option α} {key : α} :
    ofOption cursor = valid key ↔ cursor = some key := by
  cases cursor <;> simp [ofOption]

/-- A position has its entry. -/
@[simp] theorem entry_ofOption (cursor : Option α) : (ofOption cursor).entry = cursor := by
  cases cursor <;> rfl

variable [LinearOrder α]

/-- `xAdvance`, also from a remembered key. -/
def advance (d : Dir) (t : Finset α) : Position α → Position α
  | valid key | requireSeek key => ofOption (step d t key)
  | invalid => invalid

end Position

section Rows

variable {α Data : Type*} [LinearOrder α]

/-- The row shown: the insertion tree's when both bits are set. -/
def RowCursor.current (c : RowCursor α) (t : TableTrees α Data) : Option (Row α Data) :=
  if c.transIsUsed then
    c.pCurIns.entry.map fun key => ⟨.useTrans, key, t.insData key⟩
  else
    c.pCur.map fun key => ⟨.useShared, key, t.sharedData key⟩

/-- `transBtreeCursorIsUsed` -/
def transBtreeCursorIsUsed (c : RowCursor α) : Bool := c.sharedIsUsed || c.transIsUsed

section Moves

/-- `btreeSeekToExistAll`: skip deleted entries, then choose. -/
def btreeSeekToExistAll (t : TableTrees α Data) (d : Dir) (c : RowCursor α) : RowCursor α × Rc :=
  let moved := seekToExistLoop d t.shared t.del (t.shared.card + t.del.card + 1) c.pCur c.pCurDel
  let c := { c with pCur := moved.1, pCurDel := moved.2 }
  match leader d c.pCur c.pCurIns.entry with
  | some use =>
    ({ c with sharedIsUsed := use = .useShared, transIsUsed := use = .useTrans }, .ok)
  | none => (c, .done)

/-- The first loop of `sqlite3BtreeAdvanceAll`. -/
def catchUpLoop (d : Dir) (shared ins : Finset α) (sharedIsUsed transIsUsed : Bool) :
    Nat → Option α → Option α → Option α × Option α
  | 0, pCur, pCurIns => (pCur, pCurIns)
  | fuel + 1, some key, some inserted =>
    if sharedIsUsed ∧ ¬ d.lt inserted key then (some key, some inserted)
    else
      let pCurIns := if sharedIsUsed then step d ins inserted else some inserted
      if transIsUsed ∧ ¬ d.lt key inserted then (some key, pCurIns)
      else
        let pCur := if transIsUsed then step d shared key else some key
        catchUpLoop d shared ins sharedIsUsed transIsUsed fuel pCur pCurIns
  | _ + 1, pCur, pCurIns => (pCur, pCurIns)

section

variable (t : TableTrees α Data) (d : Dir) (c : RowCursor α)

/-- It is not entered unless the insertion cursor is pointing. -/
def catchUp : RowCursor α :=
  match c.pCurIns with
  | .valid inserted =>
    let moved := catchUpLoop d t.shared t.ins c.sharedIsUsed c.transIsUsed
      (t.shared.card + t.ins.card + 1) c.pCur (some inserted)
    { c with pCur := moved.1, pCurIns := .ofOption moved.2 }
  | _ => c

/-- `sqlite3BtreeAdvanceAll` -/
def sqlite3BtreeAdvanceAll : RowCursor α × Rc :=
  let c := catchUp t d c
  let c := if c.sharedIsUsed then { c with pCur := advance d t.shared c.pCur } else c
  let c := if c.transIsUsed then { c with pCurIns := c.pCurIns.advance d t.ins } else c
  btreeSeekToExistAll t d c

/-- `sqlite3BtreeFirstAll` and `sqlite3BtreeLastAll`. -/
def sqlite3BtreeFirstAll : RowCursor α × Rc :=
  btreeSeekToExistAll t d
    { c with
      pCur := if t.deleteAll then none else first d t.shared
      pCurIns := .ofOption (first d t.ins)
      pCurDel := first d t.del }

end

end Moves

section Changes

/-- `sqlite3TransBtreeInsert`. The row is looked up in the trees that the cursor uses, unless the
caller says that it is new. -/
def sqlite3TransBtreeInsert (moveto : MovetoUnpacked α) (t : TableTrees α Data) (c : RowCursor α)
    (key : α) (data : Data) (append : Bool) (seekResult : Int) :
    TableTrees α Data × RowCursor α :=
  let probe := Probe.exact key
  let search := !append && decide (seekResult = 0)
  let pCur := if search && c.sharedIsUsed then moveto.land .shared t.shared probe else c.pCur
  let isUpdate := search && c.sharedIsUsed && decide (probe.pRes pCur = 0)
  let isTransUpdate :=
    search && c.transIsUsed && decide (probe.pRes (moveto.land .ins t.ins probe) = 0)
  let del := if isUpdate then insert key t.del else t.del
  let ins := insert key t.ins
  ({ t with ins := ins, insData := Function.update t.insData key data, del := del },
    { pCur := if isUpdate || isTransUpdate then pCur else moveto.land .shared t.shared probe
      pCurIns := .ofOption (moveto.land .ins ins probe)
      pCurDel := if isUpdate then moveto.land .del del probe else c.pCurDel
      sharedIsUsed := !isTransUpdate
      transIsUsed := true })

/-- `sqlite3TransBtreeDelete` with the flag that saves the position. -/
def sqlite3TransBtreeDelete (vendored : Vendored α) (t : TableTrees α Data) (c : RowCursor α) :
    TableTrees α Data × RowCursor α :=
  if c.transIsUsed then
    match c.pCurIns with
    | .valid key =>
      ({ t with ins := t.ins.erase key },
        { c with
          pCurIns := .requireSeek key
          pCurDel := vendored.land .del t.del (Probe.exact key) })
    | _ => (t, c)
  else
    match c.pCur with
    | some key =>
      ({ t with del := insert key t.del }, { c with pCurDel := vendored.place t.del key })
    | none => (t, c)

/-- The value of a C `int` that a number is assigned to. -/
def toInt (n : Int) : Int := n.bmod (2 ^ 32)

/-- `sqlite3TransBtreeClearTable`: `*pnChange` and the trees. Inserted rows are counted in an `int`.
-/
def sqlite3TransBtreeClearTable (t : TableTrees α Data) : Int × TableTrees α Data :=
  let nChangeIns := toInt t.ins.card
  let nChange : Int := t.shared.card
  (toInt (nChange + nChangeIns), { t with ins := ∅, deleteAll := true })

/-- `sqlite3BtreeCountAll` -/
def sqlite3BtreeCountAll (t : TableTrees α Data) (c : RowCursor α) : Int :=
  if transBtreeCursorIsUsed c then
    if t.deleteAll then t.ins.card
    else t.shared.card + t.ins.card - t.del.card
  else t.shared.card

end Changes

namespace TableTrees

variable (t : TableTrees α Data)

/-- The keys of shared rows the transaction still sees. -/
def live : Finset α := if t.deleteAll then ∅ else t.shared \ t.del

/-- The keys the transaction sees. -/
def view : Finset α := if t.deleteAll then t.ins else (t.shared \ t.del) ∪ t.ins

/-- The data it sees for a key of the view. -/
def viewData (key : α) : Data := if key ∈ t.ins then t.insData key else t.sharedData key

/-- A row of the view, read from the right tree. -/
def Shows (row : Row α Data) : Prop :=
  match row.use with
  | .useShared => row.key ∈ t.live ∧ row.data = t.sharedData row.key
  | .useTrans => row.key ∈ t.ins ∧ row.data = t.insData row.key

/-- The overlay invariant. -/
structure Overlaid : Prop where
  del_subset : t.del ⊆ t.shared
  /-- An inserted row is no shared one, unless that is deleted. -/
  ins_disjoint : Disjoint t.ins (t.shared \ t.del)

variable {t}

/-- The keys of the trees under the invariant. -/
def Overlaid.overlay (overlaid : t.Overlaid) : Overlay α where
  shared := t.shared
  ins := t.ins
  del := t.del
  deleteAll := t.deleteAll
  del_subset := overlaid.del_subset
  ins_disjoint := overlaid.ins_disjoint

/-- A live shared row is not inserted. -/
theorem Overlaid.not_mem_ins (overlaid : t.Overlaid) {x : α} (live : x ∈ t.live) : x ∉ t.ins :=
  have live' : x ∈ overlaid.overlay.live := live
  Overlay.not_mem_ins_of_live live'

end TableTrees

/-- The cursor shows the row `key` of the view. -/
def RowCursor.StandsOn (c : RowCursor α) (t : TableTrees α Data) (key : α) : Prop :=
  if c.transIsUsed then c.pCurIns = .valid key ∧ key ∈ t.ins
  else c.sharedIsUsed = true ∧ c.pCur = some key ∧ key ∈ t.live

instance (c : RowCursor α) (t : TableTrees α Data) (key : α) : Decidable (c.StandsOn t key) :=
  inferInstanceAs (Decidable (if c.transIsUsed then c.pCurIns = .valid key ∧ key ∈ t.ins
    else c.sharedIsUsed = true ∧ c.pCur = some key ∧ key ∈ t.live))

end Rows

end SQLumDash.Change
