import SQLumDash.Scan.MachineOrder

/-!
# The differences that a scan takes

A scan in machine arithmetic compares only some of the rowids of a table. It compares a row with
the next one of its tree when it moves, every entry of a run of deleted rows with the first of the
run, a live row with the next deleted one, and the next live row with the next inserted one. The
scan is right exactly when each of these differences fits in 64 bits: the first two kinds end in
`SQLITE_CORRUPT` otherwise, the third loses the deletion cursor, so that deleted rows are shown, and
the fourth shows two rows in the wrong order.
-/

namespace SQLumDash.Scan

open OrderedCursor
open Dir (flip_lt irrefl asymm)
open Finset (mem_filter mem_sdiff filter_congr)

section Skipping

variable {d : Dir} {shared del : Finset Rowid} {z w y x next : Rowid} {prev : Int}
  {pCurDel : Option Rowid}

/-- Between two entries of the shared tree all entries are deleted, the first one included. -/
def Deleted (d : Dir) (shared del : Finset Rowid) (z w : Rowid) : Prop :=
  ∀ v ∈ shared, ¬ d.lt v z → d.lt v w → v ∈ del

/-- In the run of deleted entries that begins with `z`, and up to the entry after it, the
differences to `z` fit. -/
def RunFits (d : Dir) (shared del : Finset Rowid) (z : Rowid) : Prop :=
  ∀ w ∈ shared, d.lt z w → Deleted d shared del z w → Fits w z

/-- What the check compares with, on the way from `z` to `w`: the rowid of `z`, or another one on
the way if that is zero. -/
def ComparesWith (d : Dir) (z : Rowid) (prev : Int) (w : Rowid) : Prop :=
  prev = z.1 ∨ z.1 = 0 ∧ ∃ p : Rowid, p.1 = prev ∧ d.lt z p ∧ ¬ d.lt w p

/-- The check on the way from `z`. -/
theorem keyAfterMoveI64_cases (before : ComparesWith d z prev w) (notBefore : ¬ d.lt w z)
    (later : d.lt w next) :
    keyAfterMoveI64 d prev (some next) = none ∧ ¬ Fits next z ∨
      ∃ prev', keyAfterMoveI64 d prev (some next) = some prev' ∧ Fits next z ∧
        ComparesWith d z prev' next := by
  have ahead : d.lt z next := Dir.lt_of_not_lt_of_lt notBefore later
  have bound := next.2
  have passes : ∀ p : Rowid, d.lt p next → p.1 ≠ 0 → Fits next p →
      keyAfterMoveI64 d p.1 (some next) = some p.1 := by
    intro p sooner nonzero fits
    have first : PutsFirst d.flip (toI64 (next.1 - p.1)) :=
      (putsFirst_iff fits).2 (flip_lt.2 sooner)
    simp [keyAfterMoveI64, btreeValidTableKeyI64, nonzero, first]
  rcases before with rfl | ⟨zero, p, rfl, afterZero, notAfter⟩
  · by_cases zero : z.1 = 0
    · refine Or.inr ⟨next.1, ?_, ?_, Or.inr ⟨zero, next, rfl, ahead, irrefl d next⟩⟩
      · simp [keyAfterMoveI64, btreeValidTableKeyI64, zero]
      · unfold Fits
        omega
    · by_cases fits : Fits next z
      · exact Or.inr ⟨z.1, passes z ahead zero fits, fits, Or.inl rfl⟩
      · refine Or.inl ⟨?_, fits⟩
        have wrong := not_putsFirst_of_not_fits ahead fits
        simp [keyAfterMoveI64, btreeValidTableKeyI64, zero, wrong]
  · -- All rowids after zero are on one side of it.
    have sooner : d.lt p next := Dir.lt_of_not_lt_of_lt notAfter later
    have sides : p.1 ≠ 0 ∧ Fits next p ∧ Fits next z := by
      have boundP := p.2
      unfold Fits
      cases d with
      | forward =>
        have one : z.1 < p.1 := afterZero
        have two : p.1 < next.1 := sooner
        omega
      | backward =>
        have one : p.1 < z.1 := afterZero
        have two : next.1 < p.1 := sooner
        omega
    refine Or.inr ⟨p.1, passes p sooner sides.1 sides.2.1, sides.2.2, Or.inr ?_⟩
    exact ⟨zero, p, rfl, afterZero, asymm sooner⟩

/-- The deletion cursor stands on the next deleted entry, and the difference to it fits. -/
def DelRight (d : Dir) (del : Finset Rowid) (y : Rowid) (pCurDel : Option Rowid) : Prop :=
  pCurDel = step d del y ∧ ∀ x, pCurDel = some x → Fits y x

/-- The deletion cursor went past the next deleted entry. -/
def DelLost (d : Dir) (del : Finset Rowid) (y : Rowid) (pCurDel : Option Rowid) : Prop :=
  pCurDel = none ∧ ∃ x, step d del y = some x ∧ ¬ Fits y x

/-- The loop stops where the deletion cursor is ahead and the difference to it fits. -/
theorem seekToExistLoopI64_ahead (fuel : Nat) (later : d.lt y x) (fits : Fits y x) :
    seekToExistLoopI64 d shared del (fuel + 1) prev (some y) (some x) = some (some y, some x) := by
  have notLags : ¬ PutsFirst d.flip (btreeKeyCompareCursors y x) := fun lags =>
    asymm later (flip_lt.1 ((putsFirst_iff fits).1 lags))
  have apart : ¬ btreeKeyCompareCursors y x = 0 := fun zero =>
    Dir.ne later ((compare_eq_zero y x).1 zero)
  unfold seekToExistLoopI64
  rw [if_neg notLags, if_neg apart]

/-- A deletion cursor that is too far ahead runs off the end. -/
theorem seekToExistLoopI64_lost (fuel : Nat) :
    ∀ {pCurDel : Option Rowid},
      (∀ x, pCurDel = some x → x ∈ del ∧ d.lt y x ∧ ¬ Fits y x) → ahead d del pCurDel < fuel →
      seekToExistLoopI64 d shared del fuel prev (some y) pCurDel = some (some y, none) := by
  induction fuel with
  | zero => intro pCurDel far enough; omega
  | succ fuel ih =>
    intro pCurDel far enough
    cases pCurDel with
    | none => rfl
    | some x =>
      obtain ⟨member, later, wide⟩ := far x rfl
      have lags : PutsFirst d.flip (btreeKeyCompareCursors y x) :=
        (putsFirst_of_not_fits wide).2 (flip_lt.2 later)
      unfold seekToExistLoopI64
      rw [if_pos lags]
      apply ih
      · intro x' moved
        obtain ⟨⟨member', further⟩, -⟩ := step_eq_some_iff.1 moved
        refine ⟨member', Dir.trans later further, fun fits => wide ?_⟩
        exact (Fits.halfway (asymm later) (asymm further)).2 fits
      · have less := ahead_step_lt (d := d) member
        omega

/-- How the skipping of deleted entries ends, from the first entry of a run. -/
inductive SeekOutcome (d : Dir) (shared del : Finset Rowid) (z : Rowid) :
    Option (Option Rowid × Option Rowid) → Prop where
  /-- A check fails. -/
  | corrupt (far : ¬ RunFits d shared del z) : SeekOutcome d shared del z none
  /-- The shared cursor stands on the first entry that is not deleted. -/
  | found (close : RunFits d shared del z) (pCurDel : Option Rowid)
      (within : ∀ x, pCurDel = some x → x ∈ del)
      (settled : ∀ y, first d ((shared \ del).filter fun y => ¬ d.lt y z) = some y →
        DelRight d del y pCurDel ∨ DelLost d del y pCurDel)
      (ended : first d ((shared \ del).filter fun y => ¬ d.lt y z) = none →
        ∃ w ∈ del, pCurDel = some w ∧ step d shared w = none) :
      SeekOutcome d shared del z
        (some (first d ((shared \ del).filter fun y => ¬ d.lt y z), pCurDel))

/-- A run that ends with `w` fits if the difference to `w` does. -/
theorem runFits_of_end (fits : Fits w z)
    (last : ∀ v ∈ shared, Deleted d shared del z v → ¬ d.lt w v) : RunFits d shared del z := by
  intro v member after deleted
  exact ((Fits.halfway (asymm after) (last v member deleted)).1 fits).1

/-- The first entry of a run that is not deleted is the end of the run. -/
theorem run_stops (member : w ∈ shared) (kept : w ∉ del) (notBefore : ¬ d.lt w z)
    (deleted : Deleted d shared del z w) (fits : Fits w z) :
    first d ((shared \ del).filter fun y => ¬ d.lt y z) = some w ∧ RunFits d shared del z := by
  constructor
  · refine first_eq_some_iff.2 ⟨?_, fun v inside sooner => ?_⟩
    · exact mem_filter.2 ⟨mem_sdiff.2 ⟨member, kept⟩, notBefore⟩
    · obtain ⟨live, after⟩ := mem_filter.1 inside
      obtain ⟨inShared, notDeleted⟩ := mem_sdiff.1 live
      exact notDeleted (deleted v inShared after sooner)
  · exact runFits_of_end fits fun v inside run later => kept (run w member notBefore later)

/-- A run that reaches the end of the tree. -/
theorem run_ends (member : w ∈ del) (deleted : Deleted d shared del z w) (fits : Fits w z)
    (last : step d shared w = none) :
    first d ((shared \ del).filter fun y => ¬ d.lt y z) = none ∧ RunFits d shared del z := by
  have nothing := step_eq_none_iff.1 last
  constructor
  · refine first_eq_none_iff.2 fun v inside => ?_
    obtain ⟨live, after⟩ := mem_filter.1 inside
    obtain ⟨inShared, notDeleted⟩ := mem_sdiff.1 live
    rcases Dir.not_lt_iff.1 (nothing v inShared) with rfl | sooner
    · exact notDeleted member
    · exact notDeleted (deleted v inShared after sooner)
  · exact runFits_of_end fits fun v inside _ => nothing v inside

/-- The run goes on over a deleted entry. -/
theorem Deleted.step (deleted : Deleted d shared del z w) (member : w ∈ del)
    (moved : step d shared w = some next) : Deleted d shared del z next := by
  intro v inside after sooner
  rcases Dir.not_lt_iff.1 fun later => (step_eq_some_iff.1 moved).2 v inside later sooner with
    rfl | before
  · exact member
  · exact deleted v inside after before

/-- Deleted entries after an entry are those not before the next one. -/
theorem step_del_eq (subset : del ⊆ shared) (moved : step d shared w = some next) :
    step d del w = first d (del.filter fun x => ¬ d.lt x next) := by
  obtain ⟨⟨-, later⟩, least⟩ := step_eq_some_iff.1 moved
  unfold OrderedCursor.step
  congr 1
  refine filter_congr fun x member => ⟨fun after => ?_, fun notBefore => ?_⟩
  · exact least x (subset member) after
  · exact Dir.lt_of_lt_of_not_lt later notBefore

/-- The loop stops on an entry that is not deleted; the deletion cursor stays where it is or runs
off the end. -/
theorem seekToExistLoopI64_stops (shared : Finset Rowid) (prev : Int) (kept : w ∉ del)
    (there : pCurDel = first d (del.filter fun x => ¬ d.lt x w)) {fuel : Nat}
    (enough : ahead d del pCurDel < fuel) :
    ∃ pCurDel', seekToExistLoopI64 d shared del fuel prev (some w) pCurDel =
        some (some w, pCurDel') ∧ (∀ x, pCurDel' = some x → x ∈ del) ∧
      (DelRight d del w pCurDel' ∨ DelLost d del w pCurDel') := by
  have ahead : pCurDel = step d del w := by
    rw [there]
    congr 1
    refine filter_congr fun x member => ⟨fun notBefore => ?_, asymm⟩
    exact Dir.lt_of_not_lt_of_ne notBefore fun same => kept (same ▸ member)
  have within : ∀ x, pCurDel = some x → x ∈ del ∧ d.lt w x := fun x found =>
    (step_eq_some_iff.1 (ahead.symm.trans found)).1
  cases cursor : pCurDel with
  | none =>
    rw [cursor] at ahead enough
    obtain ⟨fuel, rfl⟩ : ∃ left, fuel = left + 1 := ⟨fuel - 1, by omega⟩
    have nowhere : ∀ {P : Rowid → Prop} x, (none : Option Rowid) = some x → P x := by
      intro P x found
      cases found
    exact ⟨none, rfl, nowhere, Or.inl ⟨ahead, nowhere⟩⟩
  | some x =>
    obtain ⟨member, later⟩ := within x cursor
    by_cases fits : Fits w x
    · obtain ⟨fuel, rfl⟩ : ∃ left, fuel = left + 1 := ⟨fuel - 1, by omega⟩
      refine ⟨some x, seekToExistLoopI64_ahead fuel later fits, ?_, Or.inl ⟨cursor ▸ ahead, ?_⟩⟩
      · intro x' found
        cases found
        exact member
      · intro x' found
        cases found
        exact fits
    · refine ⟨none, ?_, ?_, Or.inr ⟨rfl, x, ahead.symm.trans cursor, fits⟩⟩
      · apply seekToExistLoopI64_lost fuel
        · intro x' found
          cases found
          exact ⟨member, later, fits⟩
        · rwa [cursor] at enough
      · intro x' found
        cases found

/-- On a deleted entry the loop moves the shared cursor on. -/
theorem seekToExistLoopI64_deleted (fuel : Nat) (prev : Int) (w : Rowid) :
    seekToExistLoopI64 d shared del (fuel + 1) prev (some w) (some w) =
      (keyAfterMoveI64 d prev (step d shared w)).bind fun prev' =>
        seekToExistLoopI64 d shared del fuel prev' (step d shared w) (some w) := by
  have same : btreeKeyCompareCursors w w = 0 := (compare_eq_zero w w).2 rfl
  have notLags : ¬ PutsFirst d.flip (btreeKeyCompareCursors w w) := fun lags =>
    irrefl _ w ((putsFirst_iff (fits_self w)).1 lags)
  rw [seekToExistLoopI64, if_neg notLags, if_pos same]
  rfl

/-- A deletion cursor that is behind moves on. -/
theorem seekToExistLoopI64_behind (fuel : Nat) (prev : Int) (later : d.lt x w) (fits : Fits w x) :
    seekToExistLoopI64 d shared del (fuel + 1) prev (some w) (some x) =
      seekToExistLoopI64 d shared del fuel prev (some w) (step d del x) := by
  have lags : PutsFirst d.flip (btreeKeyCompareCursors w x) :=
    (putsFirst_iff fits).2 (flip_lt.2 later)
  rw [seekToExistLoopI64, if_pos lags]

/-- Skipping a run of deleted entries ends as `SeekOutcome` says, from any entry of the run. -/
theorem seekToExistLoopI64_outcome (subset : del ⊆ shared) (fuel : Nat) :
    ∀ {prev : Int} {w : Rowid} {pCurDel : Option Rowid}, w ∈ shared → ¬ d.lt w z →
      Deleted d shared del z w → Fits w z → ComparesWith d z prev w →
      pCurDel = first d (del.filter fun x => ¬ d.lt x w) →
      ahead d shared (some w) + ahead d del pCurDel < fuel →
      SeekOutcome d shared del z (seekToExistLoopI64 d shared del fuel prev (some w) pCurDel) := by
  induction fuel using Nat.strong_induction_on with
  | _ fuel ih =>
    intro prev w pCurDel member notBefore deleted fits compares there enough
    by_cases kept : w ∈ del
    · -- The entry is deleted, so the deletion cursor stands on it.
      have onIt : pCurDel = some w := by
        rw [there]
        refine first_eq_some_iff.2 ⟨mem_filter.2 ⟨kept, irrefl d w⟩, fun v inside => ?_⟩
        exact (mem_filter.1 inside).2
      subst onIt
      have lessShared := ahead_step_lt (d := d) member
      have lessDel := ahead_step_lt (d := d) kept
      obtain ⟨fuel, rfl⟩ : ∃ left, fuel = left + 1 := ⟨fuel - 1, by omega⟩
      rw [seekToExistLoopI64_deleted]
      cases moved : step d shared w with
      | none =>
        obtain ⟨nothing, close⟩ := run_ends kept deleted fits moved
        have ended : seekToExistLoopI64 d shared del fuel prev none (some w) =
            some (none, some w) := by
          cases fuel <;> rfl
        dsimp only [keyAfterMoveI64, Option.bind_some]
        rw [ended, ← nothing]
        refine .found close (some w) (fun x found => ?_) (fun y found => ?_)
          fun _ => ⟨w, kept, rfl, moved⟩
        · cases found
          exact kept
        · rw [nothing] at found
          cases found
      | some next =>
        obtain ⟨⟨inside, later⟩, -⟩ := step_eq_some_iff.1 moved
        have ahead : d.lt z next := Dir.lt_of_not_lt_of_lt notBefore later
        have run : Deleted d shared del z next := deleted.step kept moved
        rcases keyAfterMoveI64_cases compares notBefore later with
          ⟨stops, wide⟩ | ⟨prev', passes, fits', compares'⟩
        · rw [stops]
          exact .corrupt fun close => wide (close next inside ahead run)
        · have nearer : Fits next w := ((Fits.halfway notBefore (asymm later)).1 fits').2
          rw [moved] at lessShared
          obtain ⟨fuel, rfl⟩ : ∃ left, fuel = left + 1 := ⟨fuel - 1, by omega⟩
          rw [passes]
          dsimp only [Option.bind_some]
          rw [seekToExistLoopI64_behind fuel prev' later nearer]
          exact ih fuel (by omega) inside (asymm ahead) run fits' compares'
            (step_del_eq subset moved) (by omega)
    · have enoughDel : ahead d del pCurDel < fuel := by omega
      obtain ⟨pCurDel', stops, within, settled⟩ :=
        seekToExistLoopI64_stops shared prev kept there enoughDel
      obtain ⟨found, close⟩ := run_stops member kept notBefore deleted fits
      rw [stops, ← found]
      refine .found close pCurDel' within (fun y same => ?_) fun nothing => ?_
      · rw [found] at same
        exact Option.some.inj same ▸ settled
      · rw [found] at nothing
        cases nothing

/-- Skipping with a deletion cursor on an earlier entry: it catches up first, unless the difference
to it does not fit. -/
theorem seekToExistLoopI64_catches (subset : del ⊆ shared) (member : z ∈ shared) (fuel : Nat) :
    ∀ {x : Rowid}, x ∈ del → d.lt x z → ahead d shared (some z) + ahead d del (some x) < fuel →
      ¬ Fits z x ∧ seekToExistLoopI64 d shared del fuel z.1 (some z) (some x) =
          some (some z, some x) ∨
        Fits z x ∧ SeekOutcome d shared del z
          (seekToExistLoopI64 d shared del fuel z.1 (some z) (some x)) := by
  induction fuel with
  | zero => intro x _ _ enough; omega
  | succ fuel ih =>
    intro x deleted behind enough
    by_cases fits : Fits z x
    · refine .inr ⟨fits, ?_⟩
      have less := ahead_step_lt (d := d) deleted
      rw [seekToExistLoopI64_behind fuel z.1 behind fits]
      by_cases still : ∃ x', step d del x = some x' ∧ d.lt x' z
      · obtain ⟨x', moved, behind'⟩ := still
        obtain ⟨⟨deleted', later⟩, -⟩ := step_eq_some_iff.1 moved
        have nearer : Fits z x' :=
          ((Fits.halfway (asymm later) (asymm behind')).1 fits).2
        rw [moved] at less ⊢
        exact ((ih deleted' behind' (by omega)).resolve_left fun wide => wide.1 nearer).2
      · -- The deletion cursor is on the first deleted entry not before `z`.
        have there : step d del x = first d (del.filter fun y => ¬ d.lt y z) := by
          cases moved : step d del x with
          | none =>
            refine (first_eq_none_iff.2 fun y inside => ?_).symm
            obtain ⟨inDel, notBefore⟩ := mem_filter.1 inside
            exact step_eq_none_iff.1 moved y inDel (Dir.lt_of_lt_of_not_lt behind notBefore)
          | some x' =>
            obtain ⟨⟨deleted', -⟩, least⟩ := step_eq_some_iff.1 moved
            refine (first_eq_some_iff.2 ⟨mem_filter.2 ⟨deleted', ?_⟩, ?_⟩).symm
            · exact fun behind' => still ⟨x', moved, behind'⟩
            · intro y inside
              obtain ⟨inDel, notBefore⟩ := mem_filter.1 inside
              exact least y inDel (Dir.lt_of_lt_of_not_lt behind notBefore)
        exact seekToExistLoopI64_outcome subset fuel member (irrefl d z)
          (fun v _ notBefore sooner => absurd sooner notBefore) (fits_self z) (Or.inl rfl) there
          (by omega)
    · refine .inl ⟨fits, ?_⟩
      have notLags : ¬ PutsFirst d.flip (btreeKeyCompareCursors z x) := fun lags =>
        asymm behind (flip_lt.1 ((putsFirst_of_not_fits fits).1 lags))
      have apart : ¬ btreeKeyCompareCursors z x = 0 := fun zero =>
        Dir.ne behind ((compare_eq_zero z x).1 zero).symm
      rw [seekToExistLoopI64, if_neg notLags, if_neg apart]

end Skipping

section States

variable {ov : Overlay Rowid} {d : Dir} {Q : Rowid → Prop} [DecidablePred Q] {c : BtCursor Rowid}
  {key y z : Rowid} {fits : Prop}

/-- What `btreeSeekToExistAll` makes of positions it has settled. -/
def settleI64 (d : Dir) (c : BtCursor Rowid) : BtCursor Rowid × Rc :=
  match leaderI64 d c.pCur c.pCurIns with
  | some use => ({ c with state := use }, .ok)
  | none => (c, .done)

/-- Both positions are on the first entries of the view with `Q`; the deletion cursor is right or
lost. -/
structure Heads (ov : Overlay Rowid) (d : Dir) (Q : Rowid → Prop) [DecidablePred Q]
    (c : BtCursor Rowid) : Prop where
  shared : c.pCur = first d (ov.live.filter Q)
  ins : c.pCurIns = first d (ov.ins.filter Q)
  del : ∀ x, c.pCurDel = some x → x ∈ ov.del
  settled : ∀ y, c.pCur = some y → DelRight d ov.del y c.pCurDel ∨ DelLost d ov.del y c.pCurDel

/-- How a move ends: a check fails, exactly if some differences do not fit, or the positions are the
right ones. -/
inductive Sought (ov : Overlay Rowid) (d : Dir) (Q : Rowid → Prop) [DecidablePred Q] (fits : Prop) :
    Option (BtCursor Rowid × Rc) → Prop where
  | corrupt (far : ¬ fits) : Sought ov d Q fits none
  | settled (close : fits) (c : BtCursor Rowid) (heads : Heads ov d Q c) :
      Sought ov d Q fits (some (settleI64 d c))

/-- The condition may be put in other words. -/
theorem Sought.congr {fits' : Prop} {result : Option (BtCursor Rowid × Rc)}
    (sought : Sought ov d Q fits result) (same : fits ↔ fits') : Sought ov d Q fits' result := by
  rwa [← propext same]

/-- No more is ahead of a position than the tree has. -/
theorem ahead_le_card {t : Finset Rowid} (cursor : Option Rowid) : ahead d t cursor ≤ t.card := by
  cases cursor with
  | none => exact Nat.zero_le _
  | some key => exact Finset.card_filter_le _ _

/-- The skipping of deleted entries, then the choice of the leading cursor. -/
theorem btreeSeekToExistAllI64_settles (c : BtCursor Rowid) :
    btreeSeekToExistAllI64 ov d c =
      (keyBeforeMoveI64 d c.pCur).bind fun nOldKey =>
        (seekToExistLoopI64 d ov.shared ov.del (ov.shared.card + ov.del.card + 1) nOldKey c.pCur
          c.pCurDel).bind fun moved =>
            some (settleI64 d { c with pCur := moved.1, pCurDel := moved.2 }) := by
  unfold btreeSeekToExistAllI64 btreeSeekToExistI64 settleI64
  simp only [Option.bind_eq_bind, Option.bind_assoc, Option.bind_some]
  refine Option.bind_congr fun nOldKey _ => Option.bind_congr fun moved _ => ?_
  cases leaderI64 d moved.1 c.pCurIns <;> rfl

/-- Skipping deleted entries from an entry of the shared tree. -/
theorem btreeSeekToExistAllI64_sought (kept : ov.deleteAll = false) (there : c.pCur = some z)
    (member : z ∈ ov.shared) (del : c.pCurDel = first d (ov.del.filter fun x => ¬ d.lt x z))
    (ins : c.pCurIns = first d (ov.ins.filter Q)) (same : ∀ y ∈ ov.live, (Q y ↔ ¬ d.lt y z)) :
    Sought ov d Q (RunFits d ov.shared ov.del z) (btreeSeekToExistAllI64 ov d c) := by
  have live : first d (ov.live.filter Q) =
      first d ((ov.shared \ ov.del).filter fun y => ¬ d.lt y z) := by
    have flag : ov.live = ov.shared \ ov.del := by
      unfold Overlay.live
      rw [kept]
      rfl
    rw [filter_congr same, flag]
  have aheadShared := ahead_le_card (d := d) (t := ov.shared) (some z)
  have aheadDel := ahead_le_card (d := d) (t := ov.del) c.pCurDel
  have outcome : SeekOutcome d ov.shared ov.del z (seekToExistLoopI64 d ov.shared ov.del
      (ov.shared.card + ov.del.card + 1) z.1 (some z) c.pCurDel) :=
    seekToExistLoopI64_outcome ov.del_subset _ member (irrefl d z)
      (fun v _ notBefore sooner => absurd sooner notBefore) (fits_self z) (Or.inl rfl) del
      (by omega)
  have before : keyBeforeMoveI64 d c.pCur = some z.1 := by
    rw [there]
    rfl
  rw [btreeSeekToExistAllI64_settles, before, there]
  dsimp only [Option.bind_some]
  generalize seekToExistLoopI64 d ov.shared ov.del (ov.shared.card + ov.del.card + 1) z.1 (some z)
    c.pCurDel = result at outcome
  cases outcome with
  | corrupt far => exact .corrupt far
  | found close pCurDel within settled _ =>
    refine .settled close _ ⟨live.symm, ins, within, settled⟩

/-- Nothing is skipped where the deletion cursor is ahead and the difference to it fits. -/
theorem btreeSeekToExistAllI64_stays
    (right : ∀ y x, c.pCur = some y → c.pCurDel = some x → d.lt y x ∧ Fits y x) :
    btreeSeekToExistAllI64 ov d c = some (settleI64 d c) := by
  obtain ⟨pCur, pCurIns, pCurDel, state⟩ := c
  rw [btreeSeekToExistAllI64_settles]
  cases pCur with
  | none => rfl
  | some y =>
    cases pCurDel with
    | none => rfl
    | some x =>
      obtain ⟨later, fits⟩ := right y x rfl rfl
      show (seekToExistLoopI64 d ov.shared ov.del (ov.shared.card + ov.del.card + 1) y.1 (some y)
        (some x)).bind _ = _
      rw [seekToExistLoopI64_ahead _ later fits]
      rfl

/-- The cursor that leads is the one the machine's comparison chooses. -/
def Chosen (d : Dir) (c : BtCursor Rowid) : Prop := leaderI64 d c.pCur c.pCurIns = some c.state

/-- Which cursor leads, by the comparison of the two positions. -/
theorem Chosen.cases (chosen : Chosen d c) :
    (c.state = .useShared ∧ ∃ y, c.pCur = some y ∧ ∀ i, c.pCurIns = some i →
        btreeKeyCompareCursors y i = 0 ∨ PutsFirst d (btreeKeyCompareCursors y i)) ∨
      (c.state = .useTrans ∧ ∃ i, c.pCurIns = some i ∧ ∀ y, c.pCur = some y →
        ¬ (btreeKeyCompareCursors y i = 0 ∨ PutsFirst d (btreeKeyCompareCursors y i))) := by
  obtain ⟨pCur, pCurIns, pCurDel, state⟩ := c
  have nowhere : ∀ {P : Rowid → Prop} x, (none : Option Rowid) = some x → P x := by
    intro P x found
    cases found
  cases pCur with
  | none =>
    cases pCurIns with
    | none => cases chosen
    | some i => exact .inr ⟨(Option.some.inj chosen).symm, i, rfl, nowhere⟩
  | some y =>
    cases pCurIns with
    | none => exact .inl ⟨(Option.some.inj chosen).symm, y, rfl, nowhere⟩
    | some i =>
      change (if btreeKeyCompareCursors y i = 0 ∨ PutsFirst d (btreeKeyCompareCursors y i) then
        some CursorUse.useShared else some CursorUse.useTrans) = some state at chosen
      by_cases leads : btreeKeyCompareCursors y i = 0 ∨ PutsFirst d (btreeKeyCompareCursors y i)
      · rw [if_pos leads] at chosen
        refine .inl ⟨(Option.some.inj chosen).symm, y, rfl, fun x there => ?_⟩
        exact Option.some.inj there ▸ leads
      · rw [if_neg leads] at chosen
        refine .inr ⟨(Option.some.inj chosen).symm, i, rfl, fun x there => ?_⟩
        exact Option.some.inj there ▸ leads

/-- A leading shared cursor shows its entry. -/
theorem current_shared (state : c.state = .useShared) (there : c.pCur = some y) :
    c.current = some ⟨.useShared, y⟩ := by
  unfold BtCursor.current
  rw [state, there]
  rfl

/-- A leading insertion cursor shows its entry. -/
theorem current_ins (state : c.state = .useTrans) (there : c.pCurIns = some y) :
    c.current = some ⟨.useTrans, y⟩ := by
  unfold BtCursor.current
  rw [state, there]
  rfl

/-- In a scan the cursor that does not lead has nothing to catch up. -/
theorem catchUpI64_chosen (ov : Overlay Rowid) (chosen : Chosen d c) : catchUpI64 ov d c = c := by
  have stays : ∀ {t : Finset Rowid} {p : Rowid → Prop} [DecidablePred p] (fuel : Nat)
      {cursor : Option Rowid}, (∀ x, cursor = some x → ¬ p x) →
      advanceWhile d t (fun x => decide (p x)) (fuel + 1) cursor = cursor := by
    intro t p _ fuel cursor stops
    cases cursor with
    | none => rfl
    | some x => simp [advanceWhile, stops x rfl]
  have cases := chosen.cases
  obtain ⟨pCur, pCurIns, pCurDel, state⟩ := c
  rcases cases with ⟨rfl, y, rfl, leads⟩ | ⟨rfl, i, rfl, leads⟩
  · dsimp only [catchUpI64]
    rw [stays]
    intro i there behind
    rcases leads i there with same | before
    · rw [same] at behind
      cases d <;> exact absurd behind (lt_irrefl 0)
    · cases d <;> exact lt_asymm before behind
  · dsimp only [catchUpI64]
    rw [stays]
    exact fun y there before => leads y there (Or.inr before)

/-- Advancing the shared cursor. -/
theorem sqlite3BtreeAdvanceAllI64_shared (chosen : Chosen d c) (state : c.state = .useShared)
    (there : c.pCur = some y) :
    sqlite3BtreeAdvanceAllI64 ov d c = none ∧ (∃ z, step d ov.shared y = some z ∧ ¬ Fits z y) ∨
      sqlite3BtreeAdvanceAllI64 ov d c =
          btreeSeekToExistAllI64 ov d { c with pCur := step d ov.shared y } ∧
        ∀ z, step d ov.shared y = some z → Fits z y := by
  obtain ⟨pCur, pCurIns, pCurDel, use⟩ := c
  obtain rfl : pCur = some y := there
  obtain rfl : use = .useShared := state
  have unfolded : sqlite3BtreeAdvanceAllI64 ov d ⟨some y, pCurIns, pCurDel, .useShared⟩ =
      if y.1 = 0 then
        btreeSeekToExistAllI64 ov d ⟨step d ov.shared y, pCurIns, pCurDel, .useShared⟩
      else (keyAfterMoveI64 d y.1 (step d ov.shared y)).bind fun _ =>
        btreeSeekToExistAllI64 ov d ⟨step d ov.shared y, pCurIns, pCurDel, .useShared⟩ := by
    unfold sqlite3BtreeAdvanceAllI64
    rw [catchUpI64_chosen ov chosen]
    rfl
  rw [unfolded]
  cases moved : step d ov.shared y with
  | none =>
    refine .inr ⟨ite_self _, fun z found => ?_⟩
    cases found
  | some z =>
    have later : d.lt y z := (step_eq_some_iff.1 moved).1.2
    rcases keyAfterMoveI64_cases (Or.inl rfl) (irrefl d y) later with
      ⟨stops, wide⟩ | ⟨prev, passes, fits, -⟩
    · refine .inl ⟨?_, z, rfl, wide⟩
      have nonzero : ¬ y.1 = 0 := by
        intro zero
        have bound := z.2
        unfold Fits at wide
        omega
      rw [if_neg nonzero, stops]
      rfl
    · rw [passes]
      refine .inr ⟨ite_self _, fun z' found => ?_⟩
      cases found
      exact fits

/-- Advancing the insertion cursor. -/
theorem sqlite3BtreeAdvanceAllI64_trans (chosen : Chosen d c) (state : c.state = .useTrans) :
    sqlite3BtreeAdvanceAllI64 ov d c =
      btreeSeekToExistAllI64 ov d { c with pCurIns := advance d ov.ins c.pCurIns } := by
  unfold sqlite3BtreeAdvanceAllI64
  rw [catchUpI64_chosen ov chosen]
  obtain ⟨pCur, pCurIns, pCurDel, use⟩ := c
  obtain rfl : use = .useTrans := state
  cases pCur <;> rfl

/-- The rest of a scan after a move. -/
def scanOnI64 (ov : Overlay Rowid) (d : Dir) (limit : Nat) :
    Option (BtCursor Rowid × Rc) → Except ScanStop (List (Visit Rowid))
  | none => .error .corrupt
  | some (c, .ok) => visitsI64 ov d limit c
  | some _ => .ok []

/-- A whole scan goes on from the first positioning. -/
theorem fullScanI64_eq_scanOnI64 (state : CursorUse) (limit : Nat) :
    fullScanI64 ov d state limit = scanOnI64 ov d limit (sqlite3BtreeFirstAllI64 ov d state) := by
  unfold fullScanI64 scanOnI64
  rcases sqlite3BtreeFirstAllI64 ov d state with _ | ⟨c, rc⟩
  · rfl
  · cases rc <;> rfl

/-- A scan shows one entry and goes on from the advance. -/
theorem visitsI64_succ {visit : Visit Rowid} (current : c.current = some visit) (limit : Nat) :
    visitsI64 ov d (limit + 1) c =
      (scanOnI64 ov d limit (sqlite3BtreeAdvanceAllI64 ov d c)).map (visit :: ·) := by
  unfold visitsI64 scanOnI64
  rw [current]
  rcases sqlite3BtreeAdvanceAllI64 ov d c with _ | ⟨c', rc⟩
  · rfl
  · cases rc <;> rfl

/-- A scan that ends shows the entry it stands on and then the rest. -/
theorem visitsI64_ok {visit : Visit Rowid} {limit : Nat} {out : List (Visit Rowid)}
    (ended : visitsI64 ov d limit c = .ok out) (current : c.current = some visit) :
    ∃ limit' out', scanOnI64 ov d limit' (sqlite3BtreeAdvanceAllI64 ov d c) = .ok out' ∧
      limit = limit' + 1 ∧ out = visit :: out' := by
  cases limit with
  | zero => cases ended
  | succ limit =>
    rw [visitsI64_succ current] at ended
    cases rest : scanOnI64 ov d limit (sqlite3BtreeAdvanceAllI64 ov d c) with
    | error stop =>
      rw [rest] at ended
      cases ended
    | ok out' =>
      rw [rest] at ended
      exact ⟨limit, out', rest, rfl, (Except.ok.inj ended).symm⟩

/-- Settled positions are chosen, unless both stand nowhere. -/
theorem settleI64_cases (d : Dir) (c : BtCursor Rowid) :
    settleI64 d c = (c, .done) ∧ c.pCur = none ∧ c.pCurIns = none ∨
      ∃ use, settleI64 d c = ({ c with state := use }, .ok) ∧ Chosen d { c with state := use } := by
  unfold settleI64
  cases led : leaderI64 d c.pCur c.pCurIns with
  | some use => exact .inr ⟨use, rfl, led⟩
  | none =>
    refine .inl ⟨rfl, ?_⟩
    cases shared : c.pCur with
    | none =>
      cases ins : c.pCurIns with
      | none => exact ⟨rfl, rfl⟩
      | some i =>
        rw [shared, ins] at led
        cases led
    | some y =>
      cases ins : c.pCurIns with
      | none =>
        rw [shared, ins] at led
        cases led
      | some i =>
        rw [shared, ins] at led
        simp only [leaderI64] at led
        split_ifs at led

end States

section Lost

variable {ov : Overlay Rowid} {d : Dir}

/-- Without a deletion cursor a scan shows all entries of the shared tree, the deleted ones too. -/
theorem visitsI64_shows_deleted (limit : Nat) :
    ∀ {c : BtCursor Rowid} {y x : Rowid} {out : List (Visit Rowid)}, Chosen d c →
      c.pCurDel = none → c.pCur = some y → visitsI64 ov d limit c = .ok out → x ∈ ov.shared →
      ¬ d.lt x y → ⟨.useShared, x⟩ ∈ out := by
  induction limit with
  | zero =>
    intro c y x out _ _ _ ended
    cases ended
  | succ limit ih =>
    intro c y x out chosen lost there ended member notBefore
    -- Where the shared cursor stands on an entry not after `x`, the rest of the scan shows `x`.
    have onward : ∀ {c' : BtCursor Rowid} {z : Rowid} {rest : List (Visit Rowid)},
        scanOnI64 ov d limit (btreeSeekToExistAllI64 ov d c') = .ok rest → c'.pCurDel = none →
        c'.pCur = some z → ¬ d.lt x z → ⟨.useShared, x⟩ ∈ rest := by
      intro c' z rest ended' lost' there' notBefore'
      have settles : btreeSeekToExistAllI64 ov d c' = some (settleI64 d c') := by
        apply btreeSeekToExistAllI64_stays
        intro y x _ found
        rw [lost'] at found
        cases found
      rw [settles] at ended'
      rcases settleI64_cases d c' with ⟨-, nowhere, -⟩ | ⟨use, settled, chosen'⟩
      · rw [there'] at nowhere
        cases nowhere
      · rw [settled] at ended'
        exact ih chosen' lost' there' ended' member notBefore'
    rcases chosen.cases with ⟨state, y', there', -⟩ | ⟨state, i, ins, -⟩
    · obtain rfl : y = y' := Option.some.inj (there.symm.trans there')
      obtain ⟨limit', rest, ended', same, rfl⟩ := visitsI64_ok ended (current_shared state there)
      obtain rfl := Nat.succ.inj same
      by_cases here : x = y
      · exact here ▸ List.mem_cons_self
      · apply List.mem_cons_of_mem
        have later : d.lt y x := Dir.lt_of_not_lt_of_ne notBefore here
        rcases sqlite3BtreeAdvanceAllI64_shared chosen state there with ⟨stops, -⟩ | ⟨moves, -⟩
        · rw [stops] at ended'
          cases ended'
        · rw [moves] at ended'
          obtain ⟨z, moved⟩ : ∃ z, step d ov.shared y = some z :=
            exists_first (mem_filter.2 ⟨member, later⟩)
          exact onward ended' lost moved ((step_eq_some_iff.1 moved).2 x member later)
    · obtain ⟨limit', rest, ended', same, rfl⟩ := visitsI64_ok ended (current_ins state ins)
      obtain rfl := Nat.succ.inj same
      rw [sqlite3BtreeAdvanceAllI64_trans chosen state] at ended'
      exact List.mem_cons_of_mem _ (onward ended' lost there notBefore)

end Lost


section Conditions

/-- The differences taken on a move from `y` in the shared tree: to the next entry, and in the run
of deleted entries that begins there. -/
def MoveFits (ov : Overlay Rowid) (d : Dir) (y : Rowid) : Prop :=
  ∀ z, step d ov.shared y = some z → Fits z y ∧ RunFits d ov.shared ov.del z

/-- The differences taken at the start, in a run of deleted entries at the beginning. -/
def StartFits (ov : Overlay Rowid) (d : Dir) : Prop :=
  ov.deleteAll = false → ∀ z, first d ov.shared = some z → RunFits d ov.shared ov.del z

/-- The differences taken on account of one row of the view. A row of the shared tree is compared
with the next entry of each tree, an inserted one with the next live entry. -/
def RowFits (ov : Overlay Rowid) (d : Dir) : Visit Rowid → Prop
  | ⟨.useShared, y⟩ => MoveFits ov d y ∧ (∀ x, step d ov.del y = some x → Fits y x) ∧
      ∀ i, step d ov.ins y = some i → Fits y i
  | ⟨.useTrans, i⟩ => ∀ y, step d ov.live i = some y → Fits y i

/-- All differences a scan takes fit. -/
structure ScanFits (ov : Overlay Rowid) (d : Dir) : Prop where
  start : StartFits ov d
  rows : ∀ visit, ov.Shows visit → RowFits ov d visit

end Conditions

section Positions

variable {ov : Overlay Rowid} {d : Dir} {Q : Rowid → Prop} [DecidablePred Q] {c : BtCursor Rowid}
  {key : Rowid} {t : Finset Rowid}

/-- Heads with a deletion cursor that is right and a difference that fits. -/
structure Good (ov : Overlay Rowid) (d : Dir) (Q : Rowid → Prop) [DecidablePred Q]
    (c : BtCursor Rowid) : Prop extends Heads ov d Q c where
  right : ∀ y, c.pCur = some y → DelRight d ov.del y c.pCurDel
  pair : ∀ y i, c.pCur = some y → c.pCurIns = some i → Fits y i

/-- Good positions are those an advance has settled. -/
theorem Good.advanced (good : Good ov d Q c) : Advanced ov d Q c := by
  refine ⟨good.shared, good.ins, good.del, fun y there x member later => ?_⟩
  rw [(good.right y there).1]
  exact notPast_step member later

/-- Between positions whose difference fits the machine chooses as the order does. -/
theorem leaderI64_eq {pCur pCurIns : Option Rowid}
    (pair : ∀ y i, pCur = some y → pCurIns = some i → Fits y i) :
    leaderI64 d pCur pCurIns = leader d pCur pCurIns := by
  cases pCur with
  | none => cases pCurIns <;> rfl
  | some y =>
    cases pCurIns with
    | none => rfl
    | some i =>
      have first : PutsFirst d (btreeKeyCompareCursors y i) ↔ d.lt y i :=
        putsFirst_iff (pair y i rfl rfl)
      exact if_congr (or_congr (compare_eq_zero y i) first) rfl rfl

/-- Good positions are settled as the order does it. -/
theorem Good.settle_eq (good : Good ov d Q c) : settleI64 d c = settle d c := by
  have led := leaderI64_eq (d := d) good.pair
  cases found : leader d c.pCur c.pCurIns <;> simp only [settleI64, settle, led, found]

omit [DecidablePred Q] in
/-- What comes after the first entry of the view with `Q`. -/
theorem after_least (upward : ∀ x y, Q x → d.lt x y → Q y) (holds : Q key)
    (least : ∀ x, x ∈ ov.live ∨ x ∈ ov.ins → Q x → ¬ d.lt x key) :
    ∀ x, x ∈ ov.live ∨ x ∈ ov.ins → (Q x ∧ x ≠ key ↔ d.lt key x) := by
  intro x inView
  constructor
  · exact fun wanted => Dir.lt_of_not_lt_of_ne (least x inView wanted.1) wanted.2
  · exact fun later => ⟨upward key x holds later, (Dir.ne later).symm⟩

section

variable (after : ∀ x, x ∈ ov.live ∨ x ∈ ov.ins → (Q x ∧ x ≠ key ↔ d.lt key x))

include after

/-- A part of the view without the first entry is what comes after it. -/
theorem first_filter_eq_step (inView : ∀ x ∈ t, x ∈ ov.live ∨ x ∈ ov.ins) (apart : key ∉ t) :
    first d (t.filter Q) = step d t key := by
  congr 1
  refine filter_congr fun x member => ?_
  rw [← after x (inView x member)]
  exact ⟨fun wanted => ⟨wanted, fun same => apart (same ▸ member)⟩, And.left⟩

variable (good : Good ov d Q c) (chosen : Chosen d c)

include good chosen

/-- Advancing the shared cursor from the first entry with `Q`. -/
theorem Good.advance_shared (state : c.state = .useShared) (there : c.pCur = some key)
    (live : key ∈ ov.live) :
    Sought ov d (d.lt key) (RowFits ov d ⟨.useShared, key⟩) (sqlite3BtreeAdvanceAllI64 ov d c) := by
  have ins : c.pCurIns = step d ov.ins key := good.ins.trans
    (first_filter_eq_step after (fun x => Or.inr) (Overlay.not_mem_ins_of_live live))
  obtain ⟨del, delFits⟩ := good.right key there
  have rowFits_of_move : MoveFits ov d key → RowFits ov d ⟨.useShared, key⟩ := by
    refine fun move => ⟨move, fun x deleted => delFits x (del.trans deleted), fun i next => ?_⟩
    exact good.pair key i there (ins.trans next)
  rcases sqlite3BtreeAdvanceAllI64_shared chosen state there with
    ⟨stops, z, moved, wide⟩ | ⟨moves, fits⟩
  · rw [stops]
    exact .corrupt fun close => wide (close.1 z moved).1
  · rw [moves]
    cases moved : step d ov.shared key with
    | none =>
      have ends : MoveFits ov d key := by
        intro z found
        rw [moved] at found
        cases found
      have nothing : first d (ov.live.filter (d.lt key)) = none := by
        refine first_eq_none_iff.2 fun x member => ?_
        obtain ⟨inside, later⟩ := mem_filter.1 member
        exact step_eq_none_iff.1 moved x (Overlay.live_subset inside) later
      rw [btreeSeekToExistAllI64_stays]
      · refine .settled (rowFits_of_move ends) _ ⟨nothing.symm, ins, good.del, fun y found => ?_⟩
        cases found
      · intro y x found
        cases found
    | some z =>
      obtain ⟨⟨member, later⟩, least⟩ := step_eq_some_iff.1 moved
      have notPast : c.pCurDel = first d (ov.del.filter fun x => ¬ d.lt x z) :=
        del.trans (step_del_eq ov.del_subset moved)
      have same : ∀ y ∈ ov.live, (d.lt key y ↔ ¬ d.lt y z) := fun y inside =>
        ⟨least y (Overlay.live_subset inside), Dir.lt_of_lt_of_not_lt later⟩
      have sought := btreeSeekToExistAllI64_sought (c := { c with pCur := some z })
        (Overlay.kept_of_live live) rfl member notPast ins same
      refine sought.congr ⟨fun run => rowFits_of_move fun z' found => ?_, fun row => ?_⟩
      · obtain rfl : z = z' := Option.some.inj (moved.symm.trans found)
        exact ⟨fits z moved, run⟩
      · exact (row.1 z moved).2

/-- Advancing the insertion cursor from the first entry with `Q`. -/
theorem Good.advance_trans (state : c.state = .useTrans) (there : c.pCurIns = some key)
    (inserted : key ∈ ov.ins) :
    Sought ov d (d.lt key) (RowFits ov d ⟨.useTrans, key⟩) (sqlite3BtreeAdvanceAllI64 ov d c) := by
  have notLive : key ∉ ov.live := fun live => Overlay.not_mem_ins_of_live live inserted
  have shared : c.pCur = step d ov.live key := good.shared.trans
    (first_filter_eq_step after (fun x => Or.inl) notLive)
  have ins : advance d ov.ins c.pCurIns = step d ov.ins key := by
    rw [there]
    rfl
  have row : RowFits ov d ⟨.useTrans, key⟩ := fun y next =>
    good.pair y key (shared.trans next) there
  rw [sqlite3BtreeAdvanceAllI64_trans chosen state, btreeSeekToExistAllI64_stays]
  · exact .settled row _ ⟨shared, ins, good.del, fun y found => Or.inl (good.right y found)⟩
  · intro y x found deleted
    obtain ⟨next, fits⟩ := good.right y found
    exact ⟨(step_eq_some_iff.1 (next.symm.trans deleted)).1.2, fits x deleted⟩

/-- Advancing from the first entry with `Q` fails exactly if a difference taken on account of it
does not fit. -/
theorem Good.advance_sought (at_ : At ov d c key) :
    Sought ov d (d.lt key) (RowFits ov d ⟨c.state, key⟩) (sqlite3BtreeAdvanceAllI64 ov d c) := by
  have lead := at_.lead
  have shown := at_.shown
  rcases chosen.cases with ⟨state, y, there, -⟩ | ⟨state, i, there, -⟩
  · rw [current_shared state there] at lead
    obtain rfl : y = key := congrArg Visit.key (Option.some.inj lead)
    rw [state] at shown ⊢
    exact good.advance_shared after chosen state there shown
  · rw [current_ins state there] at lead
    obtain rfl : i = key := congrArg Visit.key (Option.some.inj lead)
    rw [state] at shown ⊢
    exact good.advance_trans after chosen state there shown

end

/-- The start of a scan fails exactly if a difference in the first run of deleted entries does not
fit. -/
theorem first_sought (ov : Overlay Rowid) (d : Dir) (state : CursorUse) :
    Sought ov d (fun _ => True) (StartFits ov d) (sqlite3BtreeFirstAllI64 ov d state) := by
  have ins : first d ov.ins = first d (ov.ins.filter fun _ => True) := by rw [Finset.filter_true]
  unfold sqlite3BtreeFirstAllI64
  cases start : (if ov.deleteAll then none else first d ov.shared) with
  | none =>
    have started : ov.deleteAll = false → first d ov.shared = none := by
      intro flag
      rw [flag] at start
      exact start
    have fits : StartFits ov d := by
      intro flag z found
      rw [started flag] at found
      cases found
    have nothing : first d (ov.live.filter fun _ => True) = none := by
      refine first_eq_none_iff.2 fun x member => ?_
      have live := (mem_filter.1 member).1
      exact first_eq_none_iff.1 (started (Overlay.kept_of_live live)) x (Overlay.live_subset live)
    rw [btreeSeekToExistAllI64_stays]
    · refine .settled fits _ ⟨nothing.symm, ins, fun x found => ?_, fun y found => ?_⟩
      · exact (first_eq_some_iff.1 found).1
      · cases found
    · intro y x found
      cases found
  | some z =>
    have kept : ov.deleteAll = false := by
      cases flag : ov.deleteAll with
      | false => rfl
      | true =>
        rw [flag] at start
        cases start
    have started : first d ov.shared = some z := by
      rw [kept] at start
      exact start
    obtain ⟨member, least⟩ := first_eq_some_iff.1 started
    have del : first d ov.del = first d (ov.del.filter fun x => ¬ d.lt x z) := by
      rw [Finset.filter_true_of_mem fun x deleted => least x (ov.del_subset deleted)]
    have same : ∀ y ∈ ov.live, (True ↔ ¬ d.lt y z) := fun y live =>
      ⟨fun _ => least y (Overlay.live_subset live), fun _ => trivial⟩
    have sought := btreeSeekToExistAllI64_sought
      (c := ⟨some z, first d ov.ins, first d ov.del, state⟩) kept rfl member del ins same
    refine sought.congr ⟨fun run _ z' found => ?_, fun fits => fits kept z started⟩
    exact Option.some.inj (started.symm.trans found) ▸ run

end Positions

section Scans

variable {ov : Overlay Rowid} {d : Dir} {Q : Rowid → Prop} [DecidablePred Q] {c : BtCursor Rowid}
  {out : List (Visit Rowid)} {limit : Nat}

omit [DecidablePred Q] in
/-- The rest of a right list is right. -/
theorem Lists.tail {visit : Visit Rowid} (lists : Lists ov d Q (visit :: out))
    (upward : ∀ x y, Q x → d.lt x y → Q y) : Lists ov d (d.lt visit.key) out := by
  obtain ⟨later, ordered⟩ := List.pairwise_cons.1 lists.1
  have holds : Q visit.key := ((lists.2 visit).1 List.mem_cons_self).2
  refine ⟨ordered, fun other => ⟨fun member => ?_, fun ⟨shown, after⟩ => ?_⟩⟩
  · exact ⟨((lists.2 other).1 (List.mem_cons_of_mem _ member)).1, later other member⟩
  · have member := (lists.2 other).2 ⟨shown, upward _ _ holds after⟩
    rcases List.mem_cons.1 member with rfl | inside
    · exact absurd after (irrefl d _)
    · exact inside

/-- An entry a position stands on. -/
theorem first_filter_some {t : Finset Rowid} {cursor : Option Rowid} {y : Rowid}
    (position : cursor = first d (t.filter Q)) (there : cursor = some y) :
    y ∈ t ∧ Q y ∧ ∀ x ∈ t, Q x → ¬ d.lt x y := by
  obtain ⟨member, least⟩ := first_eq_some_iff.1 (position.symm.trans there)
  obtain ⟨inside, holds⟩ := mem_filter.1 member
  exact ⟨inside, holds, fun x inT wanted => least x (mem_filter.2 ⟨inT, wanted⟩)⟩

/-- A scan that ends and shows the right list has taken only differences that fit to settle its
positions. -/
theorem Heads.good_of_lists (heads : Heads ov d Q c)
    (ended : scanOnI64 ov d limit (some (settleI64 d c)) = .ok out) (lists : Lists ov d Q out) :
    Good ov d Q c := by
  refine ⟨heads, fun y there => ?_, fun y i there inserted => ?_⟩
  · refine (heads.settled y there).resolve_right fun ⟨lost, x, next, _⟩ => ?_
    obtain ⟨⟨deleted, later⟩, -⟩ := step_eq_some_iff.1 next
    rcases settleI64_cases d c with ⟨-, nowhere, -⟩ | ⟨use, settled, chosen⟩
    · rw [there] at nowhere
      cases nowhere
    · rw [settled] at ended
      have shown : ⟨.useShared, x⟩ ∈ out := visitsI64_shows_deleted limit chosen lost there ended
        (ov.del_subset deleted) (asymm later)
      exact not_lists_of_stray shown (fun live => Overlay.not_mem_del_of_live live deleted) lists
  · by_contra wide
    obtain ⟨live, wantedLive, -⟩ := first_filter_some heads.shared there
    obtain ⟨member, wantedIns, -⟩ := first_filter_some heads.ins inserted
    have apart : y ≠ i := by
      rintro rfl
      exact wide (fits_self y)
    have wrong : PutsFirst d (btreeKeyCompareCursors y i) ↔ d.lt i y := putsFirst_of_not_fits wide
    rcases settleI64_cases d c with ⟨-, nowhere, -⟩ | ⟨use, settled, chosen⟩
    · rw [there] at nowhere
      cases nowhere
    rw [settled] at ended
    -- The later of the two comes first in the list.
    rcases chosen.cases with ⟨state, y', there', leads⟩ | ⟨state, i', there', leads⟩
    · obtain rfl : y = y' := Option.some.inj (there.symm.trans there')
      have sooner : d.lt i y := by
        rcases leads i inserted with zero | first
        · exact absurd ((compare_eq_zero y i).1 zero) apart
        · exact wrong.1 first
      obtain ⟨-, rest, -, -, rfl⟩ := visitsI64_ok ended (current_shared state there')
      exact not_lists_of_lost (.inr member) wantedIns sooner lists
    · obtain rfl : i = i' := Option.some.inj (inserted.symm.trans there')
      have sooner : d.lt y i := by
        have notFirst := leads y there
        rw [not_or] at notFirst
        exact Dir.lt_of_not_lt_of_ne (fun later => notFirst.2 (wrong.2 later)) apart.symm
      obtain ⟨-, rest, -, -, rfl⟩ := visitsI64_ok ended (current_ins state there')
      exact not_lists_of_lost (.inl live) wantedLive sooner lists

/-- The other way round, the positions are good where the differences of the rows fit. -/
theorem Heads.good_of_rowFits (heads : Heads ov d Q c) (upward : ∀ x y, Q x → d.lt x y → Q y)
    (rows : ∀ visit, ov.Shows visit → Q visit.key → RowFits ov d visit) : Good ov d Q c := by
  refine ⟨heads, fun y there => ?_, fun y i there inserted => ?_⟩
  · obtain ⟨live, wanted, -⟩ := first_filter_some heads.shared there
    refine (heads.settled y there).resolve_right fun ⟨_, x, next, wide⟩ => ?_
    exact wide ((rows ⟨.useShared, y⟩ live wanted).2.1 x next)
  · obtain ⟨live, wantedLive, leastLive⟩ := first_filter_some heads.shared there
    obtain ⟨member, wantedIns, leastIns⟩ := first_filter_some heads.ins inserted
    by_cases same : y = i
    · exact same ▸ fits_self y
    · rcases Dir.lt_or_gt (d := d) same with before | after
      · apply (rows ⟨.useShared, y⟩ live wantedLive).2.2
        refine step_eq_some_iff.2 ⟨⟨member, before⟩, fun x inside later => ?_⟩
        exact leastIns x inside (upward y x wantedLive later)
      · apply rows ⟨.useTrans, i⟩ member wantedIns
        refine step_eq_some_iff.2 ⟨⟨live, after⟩, fun x inside later => ?_⟩
        exact leastLive x inside (upward i x wantedIns later)

/-- What a scan does from good positions: it ends if nothing of the view with `Q` is left, and
otherwise shows its first entry and moves on. -/
theorem Good.cases (good : Good ov d Q c) (upward : ∀ x y, Q x → d.lt x y → Q y) :
    (settleI64 d c = (c, .done) ∧ ∀ x, x ∈ ov.live ∨ x ∈ ov.ins → ¬ Q x) ∨
      ∃ use key, settleI64 d c = ({ c with state := use }, .ok) ∧
        At ov d { c with state := use } key ∧ Q key ∧
        (∀ x, x ∈ ov.live ∨ x ∈ ov.ins → (Q x ∧ x ≠ key ↔ d.lt key x)) ∧
        Sought ov d (d.lt key) (RowFits ov d ⟨use, key⟩)
          (sqlite3BtreeAdvanceAllI64 ov d { c with state := use }) := by
  have cases := good.advanced.settle_cases upward
  rw [← good.settle_eq] at cases
  rcases settleI64_cases d c with ⟨settled, -⟩ | ⟨use, settled, chosen⟩
  · rw [settled] at cases
    rcases cases with ⟨-, nothing⟩ | ⟨absurd, -⟩
    · exact .inl ⟨settled, nothing⟩
    · cases absurd
  · rw [settled] at cases
    rcases cases with ⟨absurd, -⟩ | ⟨-, key, at_, holds, least⟩
    · cases absurd
    · have after := after_least upward holds least
      have same : Good ov d Q { c with state := use } :=
        ⟨⟨good.shared, good.ins, good.del, good.settled⟩, good.right, good.pair⟩
      exact .inr ⟨use, key, settled, at_, holds, after, same.advance_sought after chosen at_⟩

/-- A scan that ends and shows the right list has taken only differences that fit. -/
theorem Heads.rowFits (limit : Nat) :
    ∀ {Q : Rowid → Prop} [DecidablePred Q] {c : BtCursor Rowid} {out : List (Visit Rowid)},
      (∀ x y, Q x → d.lt x y → Q y) → Heads ov d Q c →
      scanOnI64 ov d limit (some (settleI64 d c)) = .ok out → Lists ov d Q out →
      ∀ visit, ov.Shows visit → Q visit.key → RowFits ov d visit := by
  induction limit using Nat.strong_induction_on with
  | _ limit ih =>
    intro Q _ c out upward heads ended lists visit shown wanted
    rcases (heads.good_of_lists ended lists).cases upward with
      ⟨-, nothing⟩ | ⟨use, key, settled, at_, holds, after, sought⟩
    · exact absurd wanted (nothing visit.key shown.mem)
    · rw [settled] at ended
      obtain ⟨limit', rest, ended', rfl, rfl⟩ := visitsI64_ok ended at_.lead
      generalize sqlite3BtreeAdvanceAllI64 ov d { c with state := use } = result at sought ended'
      cases sought with
      | corrupt far => cases ended'
      | settled close c' heads' =>
        by_cases same : visit.key = key
        · obtain rfl : visit = ⟨use, key⟩ := Overlay.shows_unique shown at_.shown same
          exact close
        · exact ih limit' (Nat.lt_succ_self _) (fun x y => Dir.trans) heads' ended'
            (lists.tail upward) visit shown ((after visit.key shown.mem).1 ⟨wanted, same⟩)

/-- A scan whose differences fit ends and shows the right list. -/
theorem Heads.lists (limit : Nat) :
    ∀ {Q : Rowid → Prop} [DecidablePred Q] {c : BtCursor Rowid},
      (∀ x y, Q x → d.lt x y → Q y) → Heads ov d Q c →
      (∀ visit, ov.Shows visit → Q visit.key → RowFits ov d visit) →
      (ov.live.filter Q).card + (ov.ins.filter Q).card < limit →
      ∃ out, scanOnI64 ov d limit (some (settleI64 d c)) = .ok out ∧ Lists ov d Q out := by
  induction limit with
  | zero => intro Q _ c _ _ _ enough; omega
  | succ limit ih =>
    intro Q _ c upward heads rows enough
    rcases (heads.good_of_rowFits upward rows).cases upward with
      ⟨settled, nothing⟩ | ⟨use, key, settled, at_, holds, after, sought⟩
    · rw [settled]
      exact ⟨[], rfl, lists_nil nothing⟩
    · have less := card_rest_lt upward at_.shown.mem holds
      rw [settled]
      dsimp only [scanOnI64]
      rw [visitsI64_succ at_.lead]
      generalize sqlite3BtreeAdvanceAllI64 ov d { c with state := use } = result at sought
      cases sought with
      | corrupt far => exact absurd (rows ⟨use, key⟩ at_.shown holds) far
      | settled close c' heads' =>
        have rest : ∀ visit, ov.Shows visit → d.lt key visit.key → RowFits ov d visit :=
          fun visit shown later => rows visit shown (upward key visit.key holds later)
        obtain ⟨out, ended, lists⟩ := ih (fun x y => Dir.trans) heads' rest
          (lt_of_lt_of_le less (Nat.le_of_lt_succ enough))
        rw [ended]
        exact ⟨⟨use, key⟩ :: out, rfl, lists_cons at_.shown holds lists after fun x later => later⟩

/-- A scan is right exactly if all differences it takes fit. -/
theorem scansRight_iff_scanFits (ov : Overlay Rowid) (d : Dir) (state : CursorUse) :
    ScansRight ov d state ↔ ScanFits ov d := by
  have every : ∀ out : List (Visit Rowid), Lists ov d (fun _ => True) out ↔
      out.Pairwise (fun a b => d.lt a.key b.key) ∧ ∀ visit, visit ∈ out ↔ ov.Shows visit := by
    intro out
    simp only [Lists, and_true]
  have sought := first_sought ov d state
  unfold ScansRight
  simp only [← every, fullScanI64_eq_scanOnI64]
  generalize sqlite3BtreeFirstAllI64 ov d state = result at sought
  cases sought with
  | corrupt far =>
    refine ⟨fun ⟨_, _, ended, _⟩ => ?_, fun fits => absurd fits.start far⟩
    cases ended
  | settled start c heads =>
    constructor
    · rintro ⟨limit, out, ended, lists⟩
      exact ⟨start, fun visit shown =>
        heads.rowFits limit (fun _ _ _ _ => trivial) ended lists visit shown trivial⟩
    · intro fits
      obtain ⟨out, ended, lists⟩ := heads.lists _ (fun _ _ _ _ => trivial)
        (fun visit shown _ => fits.rows visit shown) (Nat.lt_succ_self _)
      exact ⟨_, out, ended, lists⟩

end Scans

/-- Rowids are in the right order exactly as far as their differences fit. Both comparisons have the
right sign for exactly the pairs whose difference fits, the check passes exactly these of all later
rowids, and a scan is right exactly when all the differences it takes fit. -/
theorem rowid_order_iff (a b prev key : Rowid) (d : Dir) (ov : Overlay Rowid) (state : CursorUse) :
    ((btreeKeyCompareCursors a b).sign = (a.1 - b.1).sign ↔ Fits a b) ∧
    ((btreeKeyCompareOfCursor a b).sign = (a.1 - b.1).sign ↔ Fits a b) ∧
    (d.lt prev key → ((btreeValidTableKeyI64 d prev.1 key).isSome = true ↔ Fits key prev)) ∧
    (ScansRight ov d state ↔ ScanFits ov d) :=
  ⟨sign_toI64_iff a b, sign_toI64_iff a b, btreeValidTableKeyI64_iff,
    scansRight_iff_scanFits ov d state⟩

/-- The smallest rowid. -/
def lowRowid : Rowid := ⟨-2 ^ 63, by decide⟩

/-- A positive rowid. -/
def highRowid : Rowid := ⟨1, by decide⟩

/-- A table with two rows, as a transaction sees it that has changed nothing. -/
def twoRows : Overlay Rowid where
  shared := {lowRowid, highRowid}
  ins := ∅
  del := ∅
  deleteAll := false
  del_subset := Finset.empty_subset _
  ins_disjoint := Finset.disjoint_empty_left _

/-- The smallest rowid compares as larger than a positive one, and a table with both is reported as
corrupt. -/
theorem scan_reports_corrupt :
    0 < btreeKeyCompareCursors lowRowid highRowid ∧
      btreeValidTableKeyI64 .forward lowRowid.1 highRowid = none ∧
      fullScanI64 twoRows .forward .useShared 3 = .error .corrupt ∧
      ¬ ScansRight twoRows .forward .useShared := by
  refine ⟨by decide, by decide, rfl, fun right => ?_⟩
  have fits := (scansRight_iff_scanFits twoRows .forward .useShared).1 right
  have live : lowRowid ∈ twoRows.live := by decide
  have close : Fits highRowid lowRowid :=
    ((fits.rows ⟨.useShared, lowRowid⟩ live).1 highRowid (by decide)).1
  exact absurd close (by decide)

end SQLumDash.Scan
