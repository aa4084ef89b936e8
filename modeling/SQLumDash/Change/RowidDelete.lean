import SQLumDash.Change.DeleteScan
import SQLumDash.Scan.BlockScan
import SQLumDash.Scan.MachineScan
import Mathlib.Data.Fintype.Basic

/-!
# Deleting while scanning a rowid table

The moves of a cursor on a rowid table with the machine's comparisons and the check of the rowid
order. Where the difference of any two rowids fits in 64 bits they are the exact moves, so that a
scan that deletes is right under the condition of `DeleteScan`.
-/

namespace SQLumDash.Change

open OrderedCursor Scan

variable {Data : Type*} {t : TableTrees Rowid Data} {d : Dir} {c : RowCursor Rowid}

section Moves

/-- `btreeSeekToExistAll`; `none` is `SQLITE_CORRUPT`, here and below. -/
def btreeSeekToExistAllI64 (t : TableTrees Rowid Data) (d : Dir) (c : RowCursor Rowid) :
    Option (RowCursor Rowid × Rc) := do
  let nOldKey ← keyBeforeMoveI64 d c.pCur
  let moved ← seekToExistLoopI64 d t.shared t.del (t.shared.card + t.del.card + 1) nOldKey c.pCur
    c.pCurDel
  let c := { c with pCur := moved.1, pCurDel := moved.2 }
  match leaderI64 d c.pCur c.pCurIns.entry with
  | some use =>
    some ({ c with sharedIsUsed := use = .useShared, transIsUsed := use = .useTrans }, .ok)
  | none => some (c, .done)

/-- The first loop of `sqlite3BtreeAdvanceAll`. -/
def catchUpLoopI64 (d : Dir) (shared ins : Finset Rowid) (sharedIsUsed transIsUsed : Bool) :
    Nat → Option Rowid → Option Rowid → Option Rowid × Option Rowid
  | 0, pCur, pCurIns => (pCur, pCurIns)
  | fuel + 1, some key, some inserted =>
    let cmp := btreeKeyCompareCursors key inserted
    if sharedIsUsed ∧ ¬ PutsFirst d.flip cmp then (some key, some inserted)
    else
      let pCurIns := if sharedIsUsed then step d ins inserted else some inserted
      if transIsUsed ∧ ¬ PutsFirst d cmp then (some key, pCurIns)
      else
        let pCur := if transIsUsed then step d shared key else some key
        catchUpLoopI64 d shared ins sharedIsUsed transIsUsed fuel pCur pCurIns
  | _ + 1, pCur, pCurIns => (pCur, pCurIns)

section

variable (t : TableTrees Rowid Data) (d : Dir)

/-- The first loop on a cursor. -/
def catchUpI64 (c : RowCursor Rowid) : RowCursor Rowid :=
  match c.pCurIns with
  | .valid inserted =>
    let moved := catchUpLoopI64 d t.shared t.ins c.sharedIsUsed c.transIsUsed
      (t.shared.card + t.ins.card + 1) c.pCur (some inserted)
    { c with pCur := moved.1, pCurIns := .ofOption moved.2 }
  | _ => c

/-- The move of the shared cursor with its check. -/
def advanceSharedI64 (nOldKey : Int) (c : RowCursor Rowid) : Option (RowCursor Rowid) :=
  let moved := advance d t.shared c.pCur
  if nOldKey = 0 then some { c with pCur := moved }
  else do
    let _ ← keyAfterMoveI64 d nOldKey moved
    some { c with pCur := moved }

/-- `sqlite3BtreeAdvanceAll` -/
def sqlite3BtreeAdvanceAllI64 (c : RowCursor Rowid) : Option (RowCursor Rowid × Rc) := do
  let nOldKey ← keyBeforeMoveI64 d c.pCur
  let c := catchUpI64 t d c
  let c ← if c.sharedIsUsed then advanceSharedI64 t d nOldKey c else some c
  let c := if c.transIsUsed then { c with pCurIns := c.pCurIns.advance d t.ins } else c
  btreeSeekToExistAllI64 t d c

/-- `sqlite3BtreeFirstAll` and `sqlite3BtreeLastAll`. -/
def sqlite3BtreeFirstAllI64 (c : RowCursor Rowid) : Option (RowCursor Rowid × Rc) :=
  btreeSeekToExistAllI64 t d
    { c with
      pCur := if t.deleteAll then none else first d t.shared
      pCurIns := .ofOption (first d t.ins)
      pCurDel := first d t.del }

end

variable (change : RowChange Rowid Data) (chosen : Finset Rowid) (d : Dir)

/-- The rows that changing and advancing shows, and the trees. -/
def changingLoopI64 : Nat → TableTrees Rowid Data → RowCursor Rowid →
    Except ScanStop (List (Row Rowid Data) × TableTrees Rowid Data)
  | 0, _, _ => .error .limit
  | fuel + 1, t, c =>
    match c.current t with
    | none => .ok ([], t)
    | some row =>
      let changed := changeIfChosen change chosen t c row.key
      match sqlite3BtreeAdvanceAllI64 changed.1 d changed.2 with
      | none => .error .corrupt
      | some (c, .ok) =>
        (changingLoopI64 fuel changed.1 c).map fun rest => (row :: rest.1, rest.2)
      | some _ => .ok ([row], changed.1)

/-- A whole scan with a limit on the number of advances. -/
def changingScanI64 (limit : Nat) (t : TableTrees Rowid Data) (c : RowCursor Rowid) :
    Except ScanStop (List (Row Rowid Data) × TableTrees Rowid Data) :=
  match sqlite3BtreeFirstAllI64 t d c with
  | none => .error .corrupt
  | some (c, .ok) => changingLoopI64 change chosen d limit t c
  | some _ => .ok ([], t)

end Moves

/-- The scan ends without `SQLITE_CORRUPT` and is right. -/
def DeletesRightI64 (vendored : Vendored Rowid) (chosen : Finset Rowid) (d : Dir)
    (t : TableTrees Rowid Data) (c : RowCursor Rowid) : Prop :=
  ∃ limit rows after,
    changingScanI64 (deleteRow vendored) chosen d limit t c = .ok (rows, after) ∧
      DeletedRight chosen d t rows after

/-- The difference of any two rowids of a table fits. -/
def RowsFit (t : TableTrees Rowid Data) : Prop :=
  ∀ a ∈ t.shared ∪ t.ins, ∀ b ∈ t.shared ∪ t.ins, Fits a b

/-- The rowids fit and the cursor stands on entries. -/
structure Inside (t : TableTrees Rowid Data) (c : RowCursor Rowid) : Prop where
  fits : RowsFit t
  del_subset : t.del ⊆ t.shared
  shared : ∀ y, c.pCur = some y → y ∈ t.shared
  ins : ∀ i, c.pCurIns.entry = some i → i ∈ t.ins
  del : ∀ x, c.pCurDel = some x → x ∈ t.del

namespace RowsFit

variable {a b : Rowid}

/-- Two shared rows. -/
theorem shared (fits : RowsFit t) (left : a ∈ t.shared) (right : b ∈ t.shared) : Fits a b :=
  fits a (Finset.mem_union_left _ left) b (Finset.mem_union_left _ right)

/-- A shared and an inserted row. -/
theorem mixed (fits : RowsFit t) (left : a ∈ t.shared) (right : b ∈ t.ins) : Fits a b :=
  fits a (Finset.mem_union_left _ left) b (Finset.mem_union_right _ right)

end RowsFit

/-- The loop of `btreeSeekToExist` is exact. -/
theorem seekToExistLoopI64_exact {shared del : Finset Rowid} {z : Rowid}
    (close : ∀ a ∈ shared, ∀ b ∈ shared, Fits a b) (subset : del ⊆ shared) (start : z ∈ shared)
    (fuel : Nat) :
    ∀ {prev : Int} {w : Rowid} {pCurDel : Option Rowid}, w ∈ shared → ¬ d.lt w z →
      ComparesWith d z prev w → (∀ x, pCurDel = some x → x ∈ del) →
      seekToExistLoopI64 d shared del fuel prev (some w) pCurDel =
        some (seekToExistLoop d shared del fuel (some w) pCurDel) := by
  induction fuel with
  | zero => intros; rfl
  | succ fuel ih =>
    intro prev w pCurDel member notBefore compares placed
    cases pCurDel with
    | none => rfl
    | some x =>
      have fits := close w member x (subset (placed x rfl))
      have lags : PutsFirst d.flip (btreeKeyCompareCursors w x) ↔ d.lt x w :=
        (putsFirst_iff fits).trans Dir.flip_lt
      rw [seekToExistLoopI64, seekToExistLoop]
      simp only [lags, compare_eq_zero]
      by_cases behind : d.lt x w
      · rw [if_pos behind, if_pos behind]
        exact ih member notBefore compares fun x' moved => (step_eq_some_iff.1 moved).1.1
      · rw [if_neg behind, if_neg behind]
        by_cases same : w = x
        · rw [if_pos same, if_pos same]
          cases moved : step d shared w with
          | none => cases fuel <;> rfl
          | some next =>
            obtain ⟨⟨inside, later⟩, -⟩ := step_eq_some_iff.1 moved
            rcases keyAfterMoveI64_cases compares notBefore later with
              ⟨-, wide⟩ | ⟨prev', passes, -, compares'⟩
            · exact absurd (close next inside z start) wide
            · rw [passes]
              exact ih inside (Dir.not_lt_trans notBefore (Dir.asymm later)) compares' placed
        · rw [if_neg same, if_neg same]

namespace Inside

/-- Settling is exact and stays in the trees. -/
theorem seekToExistAll (inside : Inside t c) :
    btreeSeekToExistAllI64 t d c = some (btreeSeekToExistAll t d c) ∧
      Inside t (btreeSeekToExistAll t d c).1 := by
  let fuel := t.shared.card + t.del.card + 1
  obtain ⟨shared, del, -⟩ := seekToExistLoop_ahead (d := d) fuel inside.shared inside.del
  have skips : (keyBeforeMoveI64 d c.pCur).bind (fun nOldKey =>
      seekToExistLoopI64 d t.shared t.del fuel nOldKey c.pCur c.pCurDel) =
        some (seekToExistLoop d t.shared t.del fuel c.pCur c.pCurDel) := by
    cases there : c.pCur with
    | none => rfl
    | some z =>
      have start := inside.shared z there
      exact seekToExistLoopI64_exact (fun a left b right => inside.fits.shared left right)
        inside.del_subset start fuel start (Dir.irrefl d z) (Or.inl rfl) inside.del
  have unfolded : btreeSeekToExistAllI64 t d c =
      ((keyBeforeMoveI64 d c.pCur).bind fun nOldKey =>
        seekToExistLoopI64 d t.shared t.del fuel nOldKey c.pCur c.pCurDel).bind fun moved =>
          match leaderI64 d moved.1 c.pCurIns.entry with
          | some use => some ({ c with
              pCur := moved.1
              pCurDel := moved.2
              sharedIsUsed := use = .useShared
              transIsUsed := use = .useTrans }, .ok)
          | none => some ({ c with pCur := moved.1, pCurDel := moved.2 }, .done) := by
    rw [Option.bind_assoc]
    rfl
  rw [unfolded, skips]
  unfold btreeSeekToExistAll
  generalize seekToExistLoop d t.shared t.del fuel c.pCur c.pCurDel = moved at shared del
  dsimp only [Option.bind_some]
  rw [leaderI64_eq fun y i there inserted =>
    inside.fits.mixed (shared y there) (inside.ins i inserted)]
  cases leader d moved.1 c.pCurIns.entry with
  | none | some use => exact ⟨rfl, inside.fits, inside.del_subset, shared, inside.ins, del⟩

end Inside

/-- The first loop of an advance is exact, and keeps what holds of later positions. -/
theorem catchUpLoopI64_exact {shared ins : Finset Rowid} (sharedIsUsed transIsUsed : Bool)
    {P : Rowid → Prop} (close : ∀ y ∈ shared, ∀ i ∈ ins, Fits y i)
    (upward : ∀ x z, P x → d.lt x z → P z) (fuel : Nat) :
    ∀ pCur pCurIns : Option Rowid, (∀ x, pCur = some x → x ∈ shared ∧ P x) →
      (∀ i, pCurIns = some i → i ∈ ins) →
      let result := catchUpLoop d shared ins sharedIsUsed transIsUsed fuel pCur pCurIns
      catchUpLoopI64 d shared ins sharedIsUsed transIsUsed fuel pCur pCurIns = result ∧
        (∀ x, result.1 = some x → x ∈ shared ∧ P x) ∧ ∀ i, result.2 = some i → i ∈ ins := by
  induction fuel with
  | zero => exact fun _ _ placed placedIns => ⟨rfl, placed, placedIns⟩
  | succ fuel ih =>
    intro pCur pCurIns placed placedIns
    cases pCur with
    | none => exact ⟨rfl, placed, placedIns⟩
    | some key =>
      cases pCurIns with
      | none => exact ⟨rfl, placed, placedIns⟩
      | some inserted =>
        obtain ⟨member, holds⟩ := placed key rfl
        have fits := close key member inserted (placedIns inserted rfl)
        have behind : PutsFirst d.flip (btreeKeyCompareCursors key inserted) ↔ d.lt inserted key :=
          (putsFirst_iff fits).trans Dir.flip_lt
        have before : PutsFirst d (btreeKeyCompareCursors key inserted) ↔ d.lt key inserted :=
          putsFirst_iff fits
        have placedIns' : ∀ i, (if sharedIsUsed then step d ins inserted else some inserted) =
            some i → i ∈ ins := by
          split
          · exact fun i moved => (step_eq_some_iff.1 moved).1.1
          · exact placedIns
        have placed' : ∀ x, (if transIsUsed then step d shared key else some key) = some x →
            x ∈ shared ∧ P x := by
          split
          · intro x moved
            obtain ⟨⟨inside, later⟩, -⟩ := step_eq_some_iff.1 moved
            exact ⟨inside, upward key x holds later⟩
          · exact placed
        rw [catchUpLoopI64, catchUpLoop]
        simp only [behind, before]
        by_cases waits : sharedIsUsed = true ∧ ¬ d.lt inserted key
        · rw [if_pos waits, if_pos waits]
          exact ⟨rfl, placed, placedIns⟩
        · rw [if_neg waits, if_neg waits]
          by_cases stops : transIsUsed = true ∧ ¬ d.lt key inserted
          · rw [if_pos stops, if_pos stops]
            exact ⟨rfl, placed, placedIns'⟩
          · rw [if_neg stops, if_neg stops]
            exact ih _ _ placed' placedIns'

namespace Inside

/-- The first loop takes the shared cursor not back. -/
theorem catchUp (inside : Inside t c) :
    catchUpI64 t d c = Change.catchUp t d c ∧ Inside t (Change.catchUp t d c) ∧
      ∀ y z, c.pCur = some y → (Change.catchUp t d c).pCur = some z → ¬ d.lt z y := by
  have stays : Inside t c ∧ ∀ y z, c.pCur = some y → c.pCur = some z → ¬ d.lt z y := by
    refine ⟨inside, fun y z here there => ?_⟩
    rw [Option.some.inj (here.symm.trans there)]
    exact Dir.irrefl d z
  unfold catchUpI64 Change.catchUp
  cases position : c.pCurIns with
  | requireSeek i | invalid => exact ⟨rfl, stays⟩
  | valid i =>
    obtain ⟨same, shared, ins⟩ := catchUpLoopI64_exact (d := d) c.sharedIsUsed c.transIsUsed
      (P := fun x => ∀ y, c.pCur = some y → ¬ d.lt x y)
      (fun y left i right => inside.fits.mixed left right)
      (fun x z holds later y here back => holds y here (Dir.trans later back))
      (t.shared.card + t.ins.card + 1) c.pCur (some i)
      (fun x there => ⟨inside.shared x there, fun y here => stays.2 y x here there⟩)
      (fun i' there => inside.ins i' (by rw [position]; exact there))
    dsimp only
    rw [same]
    refine ⟨rfl, ⟨inside.fits, inside.del_subset, fun y there => (shared y there).1,
      fun i' there => ins i' ?_, inside.del⟩, fun y z here there => (shared z there).2 y here⟩
    rw [← there, Position.entry_ofOption]

/-- An advance is exact and stays in the trees. -/
theorem advanceAll (inside : Inside t c) :
    sqlite3BtreeAdvanceAllI64 t d c = some (sqlite3BtreeAdvanceAll t d c) ∧
      Inside t (sqlite3BtreeAdvanceAll t d c).1 := by
  obtain ⟨same, caught, notBack⟩ := inside.catchUp (d := d)
  unfold sqlite3BtreeAdvanceAllI64 sqlite3BtreeAdvanceAll
  rw [same]
  generalize Change.catchUp t d c = c' at caught notBack
  -- The check after the move of the shared cursor passes.
  have moves : ∀ nOldKey, keyBeforeMoveI64 d c.pCur = some nOldKey →
      advanceSharedI64 t d nOldKey c' = some { c' with pCur := advance d t.shared c'.pCur } := by
    intro nOldKey before
    unfold advanceSharedI64
    dsimp only
    split
    · rfl
    · cases moved : advance d t.shared c'.pCur with
      | none => rfl
      | some next =>
        obtain ⟨z, there, stepped⟩ := Option.bind_eq_some_iff.1 moved
        obtain ⟨⟨member, later⟩, -⟩ := step_eq_some_iff.1 stepped
        cases here : c.pCur with
        | none =>
          rw [here] at before
          cases before
          contradiction
        | some y =>
          rw [here] at before
          cases before
          rcases keyAfterMoveI64_cases (Or.inl rfl) (notBack y z here there) later with
            ⟨-, wide⟩ | ⟨prev, passes, -⟩
          · exact absurd (inside.fits.shared member (inside.shared y here)) wide
          · rw [passes]
            rfl
  obtain ⟨nOldKey, before⟩ : ∃ nOldKey, keyBeforeMoveI64 d c.pCur = some nOldKey := by
    cases c.pCur <;> exact ⟨_, rfl⟩
  rw [before]
  dsimp only [Option.bind_eq_bind, Option.bind_some]
  rw [moves nOldKey before]
  have settles : ∀ c'' : RowCursor Rowid, Inside t c'' →
      let left := if c''.transIsUsed then { c'' with pCurIns := c''.pCurIns.advance d t.ins } else c''
      btreeSeekToExistAllI64 t d left = some (btreeSeekToExistAll t d left) ∧
        Inside t (btreeSeekToExistAll t d left).1 := by
    intro c'' placed
    apply seekToExistAll
    split
    · refine ⟨placed.fits, placed.del_subset, placed.shared, fun i moved => ?_, placed.del⟩
      cases position : c''.pCurIns <;> rw [position] at moved
      · rw [Position.advance, Position.entry_ofOption] at moved
        exact (step_eq_some_iff.1 moved).1.1
      · rw [Position.advance, Position.entry_ofOption] at moved
        exact (step_eq_some_iff.1 moved).1.1
      · cases moved
    · exact placed
  by_cases used : c'.sharedIsUsed = true
  · rw [if_pos used, if_pos used]
    exact settles { c' with pCur := advance d t.shared c'.pCur }
      ⟨caught.fits, caught.del_subset, fun y => advance_mem, caught.ins, caught.del⟩
  · rw [if_neg used, if_neg used]
    exact settles c' caught

/-- A deletion keeps the cursor in the trees. -/
theorem delete (inside : Inside t c) (vendored : Vendored Rowid) (chosen : Finset Rowid)
    (key : Rowid) :
    Inside (changeIfChosen (deleteRow vendored) chosen t c key).1
      (changeIfChosen (deleteRow vendored) chosen t c key).2 := by
  unfold changeIfChosen
  split
  case isFalse => exact inside
  unfold deleteRow sqlite3TransBtreeDelete
  cases trans : c.transIsUsed with
  | true =>
    rw [if_pos rfl]
    cases position : c.pCurIns with
    | requireSeek i | invalid => exact inside
    | valid key =>
      have fewer : t.shared ∪ t.ins.erase key ⊆ t.shared ∪ t.ins :=
        Finset.union_subset_union_right (Finset.erase_subset _ _)
      refine ⟨fun a left b right => inside.fits a (fewer left) b (fewer right), inside.del_subset,
        inside.shared, fun i there => ?_, fun x => vendored.land_mem⟩
      cases there
  | false =>
    rw [if_neg (by decide)]
    cases there : c.pCur with
    | none => exact inside
    | some key =>
      refine ⟨inside.fits, Finset.insert_subset (inside.shared key there) inside.del_subset,
        fun y here => inside.shared y (there.trans here), inside.ins, vendored.places t.del key⟩

end Inside

/-- The loop of a scan that deletes is exact. -/
theorem changingLoopI64_exact (vendored : Vendored Rowid) (chosen : Finset Rowid) (d : Dir)
    (fuel : Nat) : ∀ {t : TableTrees Rowid Data} {c : RowCursor Rowid}, Inside t c →
      changingLoopI64 (deleteRow vendored) chosen d fuel t c =
        (changingLoop (deleteRow vendored) chosen d fuel t c).elim (.error .limit) .ok := by
  induction fuel with
  | zero => intros; rfl
  | succ fuel ih =>
    intro t c inside
    rw [changingLoopI64, changingLoop]
    cases current : c.current t with
    | none => rfl
    | some row =>
      obtain ⟨advanced, inside'⟩ := (inside.delete vendored chosen row.key).advanceAll (d := d)
      dsimp only
      rw [advanced]
      generalize changeIfChosen (deleteRow vendored) chosen t c row.key = changed at inside' ⊢
      generalize sqlite3BtreeAdvanceAll changed.1 d changed.2 = result at inside' ⊢
      obtain ⟨c', rc⟩ := result
      cases rc with
      | ok =>
        dsimp only
        rw [ih inside']
        cases changingLoop (deleteRow vendored) chosen d fuel changed.1 c' <;> rfl
      | _ => rfl

section

variable (overlaid : t.Overlaid) (fits : RowsFit t) (vendored : Vendored Rowid)
  (chosen : Finset Rowid)

include overlaid fits vendored chosen

/-- A whole scan that deletes is exact. -/
theorem changingScanI64_exact (d : Dir) (limit : Nat) (c : RowCursor Rowid) :
    changingScanI64 (deleteRow vendored) chosen d limit t c =
      (deleteScan vendored chosen d limit t c).elim (.error .limit) .ok := by
  have start : Inside t { c with
      pCur := if t.deleteAll then none else first d t.shared
      pCurIns := .ofOption (first d t.ins)
      pCurDel := first d t.del } := by
    refine ⟨fits, overlaid.del_subset, fun y there => ?_, fun i there => ?_,
      fun x there => (first_eq_some_iff.1 there).1⟩
    · dsimp only at there
      split at there
      · cases there
      · exact (first_eq_some_iff.1 there).1
    · rw [Position.entry_ofOption] at there
      exact (first_eq_some_iff.1 there).1
  obtain ⟨settled, inside⟩ := start.seekToExistAll (d := d)
  unfold changingScanI64 sqlite3BtreeFirstAllI64 deleteScan changingScan sqlite3BtreeFirstAll
  rw [settled]
  generalize btreeSeekToExistAll t d _ = result at inside ⊢
  obtain ⟨c', rc⟩ := result
  cases rc with
  | ok => exact changingLoopI64_exact vendored chosen d limit inside
  | _ => rfl

/-- A scan that ends in one way ends in the other. -/
theorem changingScanI64_eq_ok (d : Dir) (limit : Nat) (c : RowCursor Rowid)
    (result : List (Row Rowid Data) × TableTrees Rowid Data) :
    changingScanI64 (deleteRow vendored) chosen d limit t c = .ok result ↔
      deleteScan vendored chosen d limit t c = some result := by
  rw [changingScanI64_exact overlaid fits]
  cases deleteScan vendored chosen d limit t c <;> simp

end

/-- A cursor that was just opened. -/
def opened : RowCursor Rowid := ⟨none, .invalid, none, true, false⟩

/-- The rowids from 1 to 682. -/
def rowid (n : Fin 682) : Rowid := ⟨n.1 + 1, by omega⟩

/-- The difference of two of them fits. -/
theorem fits_rowid (m n : Fin 682) : Fits (rowid m) (rowid n) := by
  unfold Fits rowid
  dsimp only
  omega

/-- An inserted row between two shared ones, of which the second was deleted. -/
def repairedTable : TableTrees Rowid Unit where
  shared := {rowid 0, rowid 2}
  sharedData _ := ()
  ins := {rowid 1}
  insData _ := ()
  del := {rowid 2}
  deleteAll := false

/-- The rows 1 to 682, all but the first deleted. With pages of 4096 bytes the 681 entries fill the
root page of the deletion tree. The next insertion splits it and leaves the cursor nowhere. -/
def fullPage : TableTrees Rowid Unit where
  shared := Finset.univ.image rowid
  sharedData _ := ()
  ins := ∅
  insData _ := ()
  del := (Finset.univ.erase 0).image rowid
  deleteAll := false

end SQLumDash.Change
