import SQLumDash.Trans.Ownership

/-!
# Pending rows are locked

A transaction locks a row before it writes it. The lock is given up when an inserted row is deleted
again, although a rollback to a savepoint may bring the row back. Where no row is given up that a
savepoint still has, and no row is locked that another transaction names, every row in the trees of
a transaction is locked by its connection.
-/

namespace SQLumDash.Trans

open Ipc Psm Savepoint Runs Std

variable {Record Data : Type} {layout : Layout Record} {s s' : System layout Data}
  {conn : Conn} {action : Action Record Data} {request taken : Option (RootPage × Int)}

/-- No row is taken back that an open savepoint has. -/
def Unsaved (s : System layout Data) (action : Action Record Data) : Prop :=
  ∀ t row, action.takenRow = some (t, row) → row ∉ ((s.trans action.conn).trees.tables t).del →
    ∀ point ∈ (s.trans action.conn).saved, ¬ point.2.WritesRow t row

/-- The rows of a savepoint are locked, by locks taken before it. -/
structure PointLocked (s : System layout Data) (conn : Conn) (entry : RowLockSavepointEntry)
    (point : Int × Trees layout Data) : Prop where
  number : entry.iSavepoint = point.1
  locked : ∀ t row, point.2.WritesRow t row → s.holder t row = some conn.1
  earlier : ∀ t row, point.2.WritesRow t row →
    .record t row ∉ (s.trans conn).history.take ((s.trans conn).history.length - entry.iLockRecord)

/-- The rows of a transaction and its savepoints are locked. -/
structure RowsLocked (s : System layout Data) (conn : Conn) : Prop where
  now : ∀ t row, (s.trans conn).trees.WritesRow t row → s.holder t row = some conn.1
  saved : List.Forall₂ (PointLocked s conn) (s.trans conn).lockSavepoint.pSavepoints
    (s.trans conn).saved

/-- A transaction that has not written has no rows. -/
theorem idle_writes_no_row (t : RootPage) (row : Int) :
    ¬ (Transaction.idle : Transaction layout Data).trees.WritesRow t row := by
  rintro (inserted | deleted)
  · exact absurd inserted ExtTreeMap.not_mem_empty
  · exact absurd deleted ExtTreeMap.not_mem_empty

/-- It stays locked while history and locks stay. -/
theorem PointLocked.keeps {entry : RowLockSavepointEntry} {point : Int × Trees layout Data}
    (held : PointLocked s conn entry point)
    (history : (s'.trans conn).history = (s.trans conn).history)
    (keeps : ∀ t row, s.holder t row = some conn.1 → s'.holder t row = some conn.1) :
    PointLocked s' conn entry point where
  number := held.number
  locked t row writes := keeps t row (held.locked t row writes)
  earlier := by
    rw [history]
    exact held.earlier

/-- It stays locked when the history is cut after it. -/
theorem PointLocked.cut {entry : RowLockSavepointEntry} {point : Int × Trees layout Data}
    {newer older : List (RowRecord Record)} (held : PointLocked s conn entry point)
    (history : (s.trans conn).history = newer ++ older) (after : (s'.trans conn).history = older)
    (place : entry.iLockRecord ≤ older.length)
    (holder : ∀ t row, .record t row ∉ newer → s'.holder t row = s.holder t row) :
    PointLocked s' conn entry point := by
  have outside : ∀ t row, point.2.WritesRow t row → .record t row ∉ newer ∧
      .record t row ∉ older.take (older.length - entry.iLockRecord) := by
    intro t row writes
    have earlier := held.earlier t row writes
    rw [history, List.length_append, Nat.add_sub_assoc place, List.take_length_add_append,
      List.mem_append, not_or] at earlier
    exact earlier
  refine ⟨held.number, fun t row writes => ?_, fun t row writes => ?_⟩
  · rw [holder t row (outside t row writes).1]
    exact held.locked t row writes
  · rw [after]
    exact (outside t row writes).2

/-- The steps of others leave it so. -/
theorem RowsLocked.others (locked : RowsLocked s conn) (trans : s'.trans conn = s.trans conn)
    (keeps : ∀ t row, s.holder t row = some conn.1 → s'.holder t row = some conn.1) :
    RowsLocked s' conn where
  now t row writes := keeps t row (locked.now t row (trans ▸ writes))
  saved := by
    have history : (s'.trans conn).history = (s.trans conn).history := by rw [trans]
    rw [trans]
    exact locked.saved.imp fun _ _ held => held.keeps history keeps

/-- A longer history that records none of these rows. -/
theorem RowsLocked.longer (locked : RowsLocked s conn) (aligned : Aligned (s.trans conn))
    {new : List (RowRecord Record)}
    (log : (s'.trans conn).lockSavepoint =
      ⟨new ++ (s.trans conn).history, (s.trans conn).lockSavepoint.pSavepoints⟩)
    (saved : (s'.trans conn).saved = (s.trans conn).saved)
    (keeps : ∀ point ∈ (s.trans conn).saved, ∀ t row, point.2.WritesRow t row →
      s.holder t row = some conn.1 → s'.holder t row = some conn.1 ∧ .record t row ∉ new) :
    List.Forall₂ (PointLocked s' conn) (s'.trans conn).lockSavepoint.pSavepoints
      (s'.trans conn).saved := by
  have history : (s'.trans conn).history = new ++ (s.trans conn).history := by
    unfold Transaction.history
    rw [log]
    rfl
  rw [log, saved]
  have related := locked.saved
  have within := aligned.within
  generalize (s.trans conn).lockSavepoint.pSavepoints = entries at related within
  generalize (s.trans conn).saved = points at related keeps
  induction related with
  | nil => exact .nil
  | @cons entry point entries points held _ ih =>
    have place := within entry List.mem_cons_self
    refine .cons ⟨held.number, fun t row writes => ?_, fun t row writes => ?_⟩ ?_
    · exact (keeps point List.mem_cons_self t row writes (held.locked t row writes)).1
    · have split : (new ++ (s.trans conn).history).take
          ((new ++ (s.trans conn).history).length - entry.iLockRecord) =
          new ++ (s.trans conn).history.take
            ((s.trans conn).history.length - entry.iLockRecord) := by
        rw [List.length_append, Nat.add_sub_assoc place, List.take_length_add_append]
      rw [history, split, List.mem_append, not_or]
      exact ⟨(keeps point List.mem_cons_self t row writes (held.locked t row writes)).2,
        held.earlier t row writes⟩
    · exact ih (fun each member => within each (List.mem_cons_of_mem _ member))
        fun each member => keeps each (List.mem_cons_of_mem _ member)

/-- A step keeps its transaction's rows locked. -/
theorem RowStep.locks (rowStep : RowStep request taken conn s s') (aligned : Aligned (s.trans conn))
    (unsaved : ∀ t row, taken = some (t, row) → row ∉ ((s.trans conn).trees.tables t).del →
      ∀ point ∈ (s.trans conn).saved, ¬ point.2.WritesRow t row)
    (locked : RowsLocked s conn) : RowsLocked s' conn := by
  cases rowStep with
  | kept holder writes _ new quiet log saved =>
    refine ⟨fun t row after => ?_, locked.longer aligned log saved fun point member t row _ held => ?_⟩
    · rw [holder]
      exact (writes t row after).elim (locked.now t row) id
    · exact ⟨(holder t row).trans held, quiet t row⟩
  | locked iTable rowid _ _ free holder writes _ log saved =>
    refine ⟨fun t row after => ?_, ?_⟩
    · rw [holder]
      split_ifs with here
      · rfl
      · exact locked.now t row ((writes t row after).resolve_right here)
    · have log' : (s'.trans conn).lockSavepoint = ⟨[.record iTable rowid] ++ (s.trans conn).history,
          (s.trans conn).lockSavepoint.pSavepoints⟩ := log
      refine locked.longer aligned log' saved fun point _ t row _ held => ?_
      have other : ¬ (t = iTable ∧ row = rowid) := by
        rintro ⟨rfl, rfl⟩
        rw [held] at free
        cases free
      refine ⟨by rw [holder, if_neg other, held], fun recorded => ?_⟩
      injection List.mem_singleton.1 recorded with table number
      exact other ⟨table, number⟩
  | unlocked iTable rowid back absent _ holder writes _ log saved =>
    refine ⟨fun t row after => ?_, ?_⟩
    · obtain ⟨before, other⟩ := writes t row after
      rw [holder, if_neg other]
      exact locked.now t row before
    · have log' : (s'.trans conn).lockSavepoint =
          ⟨[] ++ (s.trans conn).history, (s.trans conn).lockSavepoint.pSavepoints⟩ := log
      refine locked.longer aligned log' saved fun point member t row written held => ?_
      have other : ¬ (t = iTable ∧ row = rowid) := by
        rintro ⟨rfl, rfl⟩
        exact unsaved t row back absent point member written
      exact ⟨by rw [holder, if_neg other, held], nofun⟩
  | opened holder trees log saved =>
    refine ⟨fun t row after => ?_, ?_⟩
    · rw [holder]
      exact locked.now t row (trees ▸ after)
    · have history : (s'.trans conn).history = (s.trans conn).history := by
        unfold Transaction.history
        rw [log]
        rfl
      rw [log, saved]
      refine .cons ⟨rfl, fun t row writes => ?_, fun t row writes => ?_⟩ ?_
      · rw [holder]
        exact locked.now t row writes
      · rw [history, Nat.sub_self, List.take_zero]
        nofun
      · exact locked.saved.imp fun _ _ held =>
          held.keeps history fun t row mine => (holder t row).trans mine
  | rolledBack newer older iSavepoint trees lower below found position history freed holder trans =>
    obtain ⟨place, rest, target, related, suffix, -⟩ :=
      target_of_savedAt locked.saved (fun _ _ held => held.number) found
    cases position.symm.trans target
    -- What the rollback undoes was recorded after this savepoint, and so after those below it.
    have sorted := aligned.sorted.sublist suffix.sublist
    have places : ∀ entry ∈ (⟨older.length, iSavepoint⟩ :: lower : List RowLockSavepointEntry),
        entry.iLockRecord ≤ older.length := by
      intro entry member
      rcases List.mem_cons.1 member with rfl | inside
      · exact Nat.le_refl _
      · exact (List.pairwise_cons.1 sorted).1 entry inside
    have cut : (s'.trans conn).history = older := by
      unfold Transaction.history
      rw [trans]
    have after : List.Forall₂ (PointLocked s' conn) (⟨older.length, iSavepoint⟩ :: lower)
        ((iSavepoint, trees) :: below) := by
      refine ((List.forall₂_and_left _ _).2 ⟨places, related⟩).imp ?_
      rintro entry point ⟨place, held⟩
      exact held.cut history cut place holder
    rw [List.forall₂_cons] at after
    refine ⟨?_, ?_⟩
    · rw [trans]
      exact after.1.locked
    · rw [trans]
      exact .cons after.1 after.2
  | released iSavepoint trees place lower below found position holder trans =>
    obtain ⟨place', rest, target, related, -, -⟩ :=
      target_of_savedAt locked.saved (fun _ _ held => held.number) found
    cases position.symm.trans target
    have history : (s'.trans conn).history = (s.trans conn).history := by
      rw [trans]
      rfl
    refine ⟨fun t row after => ?_, ?_⟩
    · rw [trans] at after
      rw [holder]
      exact locked.now t row after
    · rw [trans]
      exact (List.forall₂_cons.1 related).2.imp fun _ _ held =>
        held.keeps history fun t row mine => (holder t row).trans mine
  | finished _ trans =>
    refine ⟨fun t row after => ?_, ?_⟩
    · rw [trans] at after
      exact absurd after (idle_writes_no_row t row)
    · rw [trans]
      exact .nil

/-- Without savepoints every step keeps pending rows locked. -/
theorem rowsLocked_step (action : Action Record Data) (aligned : s.Aligned) (plain : s.NoSavepoint)
    (locked : ∀ conn, RowsLocked s conn) (conn : Conn) : RowsLocked (step s action) conn := by
  have rowStep := step_rowStep action (aligned action.conn)
  by_cases mine : conn = action.conn
  · subst mine
    refine rowStep.locks (aligned _) (fun t row _ _ point member => ?_) (locked _)
    rw [plain] at member
    cases member
  · refine (locked conn).others (step_others s action mine) fun t row held => ?_
    refine rowStep.keeps mine (fun inserted => ?_) (Or.inl (plain _)) held
    have own := (locked action.conn).now t row (Or.inl inserted)
    exact mine (Subtype.ext (Option.some.inj (held.symm.trans own)))

/-- The conditions on a step. -/
structure LockDiscipline (s : System layout Data) (action : Action Record Data) : Prop where
  unnamed : UnnamedRow s action
  unsaved : Unsaved s action

/-- In every state of a run in which no row lock is granted on a row that another open transaction
names, and no lock is given up on a row that an open savepoint has, every row in the trees of a
connection is locked by it. -/
theorem pending_rows_locked (tables : RootPage → ExtTreeMap Int Data)
    (indexes : (t : RootPage) → ExtTreeMap Record Unit (layout.cmp t))
    (actions : List (Action Record Data))
    (disciplined : Guarded step LockDiscipline (System.init tables indexes) actions)
    (conn : Conn) (t : RootPage) (row : Int) :
    ((run step (System.init tables indexes) actions).trans conn).trees.WritesRow t row →
      (run step (System.init tables indexes) actions).holder t row = some conn.1 := by
  have reached : (run step (System.init tables indexes) actions).Aligned ∧
      OwnedRows (run step (System.init tables indexes) actions) ∧
      ∀ conn, RowsLocked (run step (System.init tables indexes) actions) conn := by
    apply disciplined.invariant (P := fun s => s.Aligned ∧ OwnedRows s ∧ ∀ conn, RowsLocked s conn)
    · rintro s action ⟨aligned, owned, locked⟩ ⟨unnamed, unsaved⟩
      refine ⟨step_aligned action aligned, owned.step aligned unnamed, fun conn => ?_⟩
      have rowStep := step_rowStep action (aligned action.conn)
      by_cases mine : conn = action.conn
      · subst mine
        exact rowStep.locks (aligned _) unsaved (locked _)
      · exact (locked conn).others (step_others s action mine) fun t row held =>
          rowStep.keeps_owned mine owned held
    · refine ⟨init_aligned tables indexes, init_ownedRows tables indexes, fun conn => ⟨?_, .nil⟩⟩
      exact fun t row writes => absurd writes (idle_writes_no_row t row)
  exact (reached.2.2 conn).now t row

instance (trees : Trees layout Data) (t : RootPage) (row : Int) : Decidable (trees.WritesRow t row) :=
  inferInstanceAs (Decidable (_ ∨ _))

/-- Row 5 outlasts a rollback to a savepoint after it. -/
theorem pending_rows_locked_savepoint :
    Guarded step LockDiscipline emptySystem
      [insertFive connA, .savepoint connA, .endSavepoint connA .rollback 0] ∧
    ((run step emptySystem [insertFive connA, .savepoint connA,
      .endSavepoint connA .rollback 0]).trans connA).trees.WritesRow tableTwo 5 ∧
    (run step emptySystem [insertFive connA, .savepoint connA,
      .endSavepoint connA .rollback 0]).holder tableTwo 5 = some connA.1 := by
  have disciplined : Guarded step LockDiscipline emptySystem
      [insertFive connA, .savepoint connA, .endSavepoint connA .rollback 0] :=
    ⟨⟨fun _ _ _ _ _ _ names => idle_names_no_row names, nofun⟩, ⟨nofun, nofun⟩, ⟨nofun, nofun⟩,
      trivial⟩
  have writes : ((run step emptySystem [insertFive connA, .savepoint connA,
      .endSavepoint connA .rollback 0]).trans connA).trees.WritesRow tableTwo 5 := by decide
  exact ⟨disciplined, writes, pending_rows_locked (fun _ => ∅) (fun _ => ∅) _ disciplined connA
    tableTwo 5 writes⟩

/-- A row that is deleted after a savepoint comes back with the rollback, without its lock. -/
theorem restored_row_unlocked :
    let after := run step emptySystem [insertFive connA, .savepoint connA,
      .deleteTable connA tableTwo true 5, .endSavepoint connA .rollback 0]
    (after.trans connA).trees.WritesRow tableTwo 5 ∧ after.holder tableTwo 5 = none := by
  decide

end SQLumDash.Trans
