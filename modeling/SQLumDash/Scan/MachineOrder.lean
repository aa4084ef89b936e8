import SQLumDash.Scan.FullScan

/-!
# Rowid order in machine arithmetic

Rowids are compared by the sign of their difference in 64 bits, when the cursors of the three trees
are merged, when deleted rows are skipped, and in the check that a cursor went in the right
direction. The difference of two rowids need not fit in 64 bits, and then its sign is the wrong one.
The trees themselves are in the right order.

The functions below are those of `Scan.Cursor` with the comparisons the machine makes. A comparison
is right exactly when the difference of the two rowids fits.
-/

namespace SQLumDash.Scan

open OrderedCursor

/-- An `i64`. -/
abbrev Rowid := {n : Int // -2 ^ 63 ≤ n ∧ n < 2 ^ 63}

/-- The value of an `i64` that a number is assigned to. -/
def toI64 (n : Int) : Int := n.bmod (2 ^ 64)

/-- `btreeKeyCompareCursors` on a rowid table. -/
def btreeKeyCompareCursors (nKey1 nKey2 : Rowid) : Int := toI64 (nKey1.1 - nKey2.1)

/-- `btreeKeyCompareOfCursor` on a rowid table. -/
def btreeKeyCompareOfCursor (intKey nKey : Rowid) : Int := toI64 (intKey.1 - nKey.1)

/-- A difference puts its first key first in a direction. -/
def PutsFirst (d : Dir) (cmp : Int) : Prop :=
  match d with
  | .forward => cmp < 0
  | .backward => 0 < cmp

instance (d : Dir) (cmp : Int) : Decidable (PutsFirst d cmp) :=
  match d with
  | .forward => inferInstanceAs (Decidable (cmp < 0))
  | .backward => inferInstanceAs (Decidable (0 < cmp))

/-- `btreeValidTableKey`: the rowid to compare with next time, or nothing for `SQLITE_CORRUPT`. -/
def btreeValidTableKeyI64 (d : Dir) (prev : Int) (key : Rowid) : Option Int :=
  if prev = 0 then some key.1
  else if PutsFirst d.flip (toI64 (key.1 - prev)) then some prev
  else none

/-- The check made before a move, on a cursor that stands on an entry. -/
def keyBeforeMoveI64 (d : Dir) : Option Rowid → Option Int
  | some key => btreeValidTableKeyI64 d 0 key
  | none => some 0

/-- The check made after a move, unless the move went off the end. -/
def keyAfterMoveI64 (d : Dir) (prev : Int) : Option Rowid → Option Int
  | some key => btreeValidTableKeyI64 d prev key
  | none => some prev

/-- The loop of `btreeSeekToExist`. -/
def seekToExistLoopI64 (d : Dir) (shared del : Finset Rowid) :
    Nat → Int → Option Rowid → Option Rowid → Option (Option Rowid × Option Rowid)
  | 0, _, pCur, pCurDel => some (pCur, pCurDel)
  | fuel + 1, nOldKey, some key, some deleted =>
    let cmp := btreeKeyCompareCursors key deleted
    if PutsFirst d.flip cmp then
      seekToExistLoopI64 d shared del fuel nOldKey (some key) (step d del deleted)
    else if cmp = 0 then do
      let nOldKey ← keyAfterMoveI64 d nOldKey (step d shared key)
      seekToExistLoopI64 d shared del fuel nOldKey (step d shared key) (some deleted)
    else
      some (some key, some deleted)
  | _ + 1, _, pCur, pCurDel => some (pCur, pCurDel)

/-- The choice of the leading cursor in `btreeSeekToExistAll`. -/
def leaderI64 (d : Dir) (pCur pCurIns : Option Rowid) : Option CursorUse :=
  match pCur, pCurIns with
  | some key, some inserted =>
    let cmp := btreeKeyCompareCursors key inserted
    if cmp = 0 ∨ PutsFirst d cmp then some .useShared else some .useTrans
  | some _, none => some .useShared
  | none, some _ => some .useTrans
  | none, none => none

section Moves

variable (ov : Overlay Rowid) (d : Dir)

/-- `btreeSeekToExist` -/
def btreeSeekToExistI64 (c : BtCursor Rowid) : Option (BtCursor Rowid) := do
  let nOldKey ← keyBeforeMoveI64 d c.pCur
  let moved ← seekToExistLoopI64 d ov.shared ov.del (ov.shared.card + ov.del.card + 1) nOldKey
    c.pCur c.pCurDel
  some { c with pCur := moved.1, pCurDel := moved.2 }

/-- `btreeSeekToExistAll` -/
def btreeSeekToExistAllI64 (c : BtCursor Rowid) : Option (BtCursor Rowid × Rc) := do
  let c ← btreeSeekToExistI64 ov d c
  match leaderI64 d c.pCur c.pCurIns with
  | some use => some ({ c with state := use }, .ok)
  | none => some (c, .done)

/-- The first loop of `sqlite3BtreeAdvanceAll`. -/
def catchUpI64 (c : BtCursor Rowid) : BtCursor Rowid :=
  match c.state, c.pCur, c.pCurIns with
  | .useShared, some key, _ =>
    { c with
      pCurIns := advanceWhile d ov.ins (fun i => PutsFirst d.flip (btreeKeyCompareCursors key i))
        (ov.ins.card + 1) c.pCurIns }
  | .useTrans, _, some key =>
    { c with
      pCur := advanceWhile d ov.shared (fun y => PutsFirst d (btreeKeyCompareCursors y key))
        (ov.shared.card + 1) c.pCur }
  | _, _, _ => c

/-- `sqlite3BtreeAdvanceAll` -/
def sqlite3BtreeAdvanceAllI64 (c : BtCursor Rowid) : Option (BtCursor Rowid × Rc) := do
  let nOldKey ← keyBeforeMoveI64 d c.pCur
  let c := catchUpI64 ov d c
  let c ← match c.state with
    | .useShared => do
      let moved := advance d ov.shared c.pCur
      if nOldKey = 0 then some { c with pCur := moved }
      else do
        let _ ← keyAfterMoveI64 d nOldKey moved
        some { c with pCur := moved }
    | .useTrans => some { c with pCurIns := advance d ov.ins c.pCurIns }
  btreeSeekToExistAllI64 ov d c

/-- `sqlite3BtreeFirstAll` (forward) and `sqlite3BtreeLastAll` (backward). -/
def sqlite3BtreeFirstAllI64 (state : CursorUse) : Option (BtCursor Rowid × Rc) :=
  btreeSeekToExistAllI64 ov d
    { pCur := if ov.deleteAll then none else first d ov.shared
      pCurIns := first d ov.ins
      pCurDel := first d ov.del
      state := state }

/-- Why a scan stops without a result. -/
inductive ScanStop where
  /-- The limit on the number of advances is reached. -/
  | limit
  | corrupt
  deriving DecidableEq, Repr

/-- What repeated advancing shows. -/
def visitsI64 : Nat → BtCursor Rowid → Except ScanStop (List (Visit Rowid))
  | 0, _ => .error .limit
  | fuel + 1, c =>
    match c.current with
    | none => .ok []
    | some visit =>
      match sqlite3BtreeAdvanceAllI64 ov d c with
      | none => .error .corrupt
      | some (c, .ok) => (visitsI64 fuel c).map (visit :: ·)
      | some _ => .ok [visit]

/-- A whole scan with a limit on the number of advances. -/
def fullScanI64 (state : CursorUse) (limit : Nat) : Except ScanStop (List (Visit Rowid)) :=
  match sqlite3BtreeFirstAllI64 ov d state with
  | none => .error .corrupt
  | some (c, .ok) => visitsI64 ov d limit c
  | some _ => .ok []

/-- A scan ends, without `SQLITE_CORRUPT`, and shows the view in the right order. -/
def ScansRight (state : CursorUse) : Prop :=
  ∃ limit out, fullScanI64 ov d state limit = .ok out ∧
    out.Pairwise (fun a b => d.lt a.key b.key) ∧ ∀ visit, visit ∈ out ↔ ov.Shows visit

end Moves

section Differences

variable {a b : Rowid} {d : Dir}

/-- The difference of two rowids is an `i64`. -/
def Fits (a b : Rowid) : Prop := -2 ^ 63 ≤ a.1 - b.1 ∧ a.1 - b.1 < 2 ^ 63

instance (a b : Rowid) : Decidable (Fits a b) :=
  inferInstanceAs (Decidable (-2 ^ 63 ≤ a.1 - b.1 ∧ a.1 - b.1 < 2 ^ 63))

/-- A difference that fits is taken without wrapping. -/
theorem toI64_of_fits (fits : Fits a b) : toI64 (a.1 - b.1) = a.1 - b.1 := by
  unfold Fits at fits
  unfold toI64 Int.bmod
  dsimp only
  split_ifs <;> omega

/-- The sign of a difference is right exactly when the difference fits. -/
theorem sign_toI64_iff (a b : Rowid) : (toI64 (a.1 - b.1)).sign = (a.1 - b.1).sign ↔ Fits a b := by
  have boundA := a.2
  have boundB := b.2
  constructor
  · intro right
    by_contra wide
    unfold Fits at wide
    unfold toI64 Int.bmod at right
    dsimp only at right
    rcases lt_trichotomy (a.1 - b.1) 0 with negative | zero | positive
    · rw [Int.sign_eq_neg_one_of_neg negative, Int.sign_eq_neg_one_iff_neg] at right
      split_ifs at right <;> omega
    · omega
    · rw [Int.sign_eq_one_of_pos positive, Int.sign_eq_one_iff_pos] at right
      split_ifs at right <;> omega
  · exact fun fits => congrArg Int.sign (toI64_of_fits fits)

/-- A difference that fits puts first what comes first. -/
theorem putsFirst_iff (fits : Fits a b) : PutsFirst d (toI64 (a.1 - b.1)) ↔ d.lt a b := by
  rw [toI64_of_fits fits]
  cases d with
  | forward =>
    show a.1 - b.1 < 0 ↔ a.1 < b.1
    omega
  | backward =>
    show 0 < a.1 - b.1 ↔ b.1 < a.1
    omega

/-- A difference that does not fit has the wrong sign. -/
theorem not_putsFirst_of_not_fits (later : d.lt b a) (wide : ¬ Fits a b) :
    ¬ PutsFirst d.flip (toI64 (a.1 - b.1)) := by
  have boundA := a.2
  have boundB := b.2
  unfold Fits at wide
  cases d with
  | forward =>
    have positive : b.1 < a.1 := later
    show ¬ 0 < toI64 (a.1 - b.1)
    unfold toI64 Int.bmod
    dsimp only
    split_ifs <;> omega
  | backward =>
    have negative : a.1 < b.1 := later
    show ¬ toI64 (a.1 - b.1) < 0
    unfold toI64 Int.bmod
    dsimp only
    split_ifs <;> omega

/-- Only equal rowids compare as equal. -/
theorem compare_eq_zero (a b : Rowid) : btreeKeyCompareCursors a b = 0 ↔ a = b := by
  have boundA := a.2
  have boundB := b.2
  rw [Subtype.ext_iff]
  unfold btreeKeyCompareCursors toI64 Int.bmod
  dsimp only
  split_ifs <;> omega

/-- A difference that does not fit puts the later rowid first. -/
theorem putsFirst_of_not_fits (wide : ¬ Fits a b) :
    PutsFirst d (btreeKeyCompareCursors a b) ↔ d.lt b a := by
  have boundA := a.2
  have boundB := b.2
  unfold Fits at wide
  cases d with
  | forward =>
    show btreeKeyCompareCursors a b < 0 ↔ b.1 < a.1
    unfold btreeKeyCompareCursors toI64 Int.bmod
    dsimp only
    split_ifs <;> omega
  | backward =>
    show 0 < btreeKeyCompareCursors a b ↔ a.1 < b.1
    unfold btreeKeyCompareCursors toI64 Int.bmod
    dsimp only
    split_ifs <;> omega

/-- The difference of a rowid to itself fits. -/
theorem fits_self (a : Rowid) : Fits a a := by
  unfold Fits
  omega

/-- The difference to a rowid on the way is not larger. -/
theorem Fits.halfway {c : Rowid} (first : ¬ d.lt b a) (second : ¬ d.lt c b) :
    (Fits c a → Fits b a ∧ Fits c b) ∧ (Fits a c → Fits a b) := by
  unfold Fits
  cases d with
  | forward =>
    have first : a.1 ≤ b.1 := not_lt.1 first
    have second : b.1 ≤ c.1 := not_lt.1 second
    omega
  | backward =>
    have first : b.1 ≤ a.1 := not_lt.1 first
    have second : c.1 ≤ b.1 := not_lt.1 second
    omega

/-- The check passes a later rowid exactly when the difference fits. -/
theorem btreeValidTableKeyI64_iff {prev key : Rowid} (later : d.lt prev key) :
    (btreeValidTableKeyI64 d prev.1 key).isSome = true ↔ Fits key prev := by
  have bound := key.2
  by_cases zero : prev.1 = 0
  · have fits : Fits key prev := by
      unfold Fits
      omega
    simp [btreeValidTableKeyI64, zero, fits]
  · by_cases fits : Fits key prev
    · have first : PutsFirst d.flip (toI64 (key.1 - prev.1)) :=
        (putsFirst_iff fits).2 (Dir.flip_lt.2 later)
      simp [btreeValidTableKeyI64, zero, first, fits]
    · have wrong := not_putsFirst_of_not_fits later fits
      simp [btreeValidTableKeyI64, zero, wrong, fits]

end Differences

end SQLumDash.Scan
