import SQLumDash.Lib.Run
import SQLumDash.Ipc.TableSpec

/-!
# Running statements and commits

A statement locks its tables in the normal mode and gives the locks back, or only their flags, when
it ends. A commit in the commit mode is refused while another connection's entry is in use. The flag
reaches every statement only under conditions that the source does not establish; with them, no
commit is granted over a running statement.
-/

namespace SQLumDash.Ipc

open Runs

/-- A statement of a connection. -/
structure Statement where
  conn : Conn
  num : Nat
  deriving DecidableEq

/-- The area and the locks running statements took. -/
structure StmtState where
  pTableLock : TableArea
  /-- The statements between their lock and their end. -/
  running : List (Statement × RootPage)

/-- The steps connections take on table locks. -/
inductive TableAction where
  /-- In `MODE_LOCK_NORMAL`. -/
  | lock (stmt : Statement) (iTable : RootPage) (eLock : TableLock)
  | stmtEnd (stmt : Statement)
  /-- The request for `EXCLSV_LOCK` in `MODE_LOCK_COMMIT`. -/
  | commit (conn : Conn) (iTable : RootPage)
  | transEnd (conn : Conn)

section

variable (cfg : TableConfig)

/-- The request a commit makes for a table. -/
def commitLock (s : StmtState) (conn : Conn) (iTable : RootPage) :
    Rc × TableArea × Option TableLock :=
  sqlite3rowlockIpcLockTable cfg conn.1 s.pTableLock iTable.1 .exclsv .commit

/-- One step. A statement runs once its lock is granted. -/
def tableStep (s : StmtState) : TableAction → StmtState
  | .lock stmt iTable eLock =>
    let result := sqlite3rowlockIpcLockTable cfg stmt.conn.1 s.pTableLock iTable.1 eLock .normal
    ⟨result.2.1, if result.1 = .ok then (stmt, iTable) :: s.running else s.running⟩
  | .stmtEnd stmt =>
    ⟨sqlite3rowlockIpcUnlockTablesStmtProc cfg stmt.conn.1 s.pTableLock,
      s.running.filter fun lock => lock.1 ≠ stmt⟩
  | .commit conn iTable => ⟨(commitLock cfg s conn iTable).2.1, s.running⟩
  | .transEnd conn => ⟨sqlite3rowlockIpcUnlockTablesProc cfg conn.1 s.pTableLock, s.running⟩

/-- No connection has a lock. -/
def StmtState.init : StmtState := ⟨tableClassInitArea, []⟩

/-- An unlock in this mode removes the entry. -/
def TableElement.endsIn (elem : TableElement) (mode : UnlockMode) : Prop :=
  elem.iTable ≠ 0 ∧ (mode = .trans ∨ elem.eLock = .read)

instance (elem : TableElement) (mode : UnlockMode) : Decidable (elem.endsIn mode) :=
  inferInstanceAs (Decidable (_ ∧ _))

/-- The slot lies behind no entry that the unlock removes. -/
def TableArea.Settled (area : TableArea) (conn : Conn) (mode : UnlockMode) (j : Nat) : Prop :=
  ∀ i < cfg.nElement, (area.pElement i).heldBy conn.1 → (area.pElement i).endsIn mode →
    ¬ area.Behind tableClass cfg.nElement i j

instance (area : TableArea) (conn : Conn) (mode : UnlockMode) (j : Nat) :
    Decidable (area.Settled cfg conn mode j) :=
  inferInstanceAs (Decidable (∀ i < cfg.nElement, _))

/-- Nobody else's entry for the table is marked in use. -/
def TableArea.Idle (area : TableArea) (conn : Conn) (iTable : RootPage) : Prop :=
  ∀ j < cfg.nElement, (area.pElement j).iTable = iTable.1 → ¬ (area.pElement j).heldBy conn.1 →
    (area.pElement j).inUse = false

instance (area : TableArea) (conn : Conn) (iTable : RootPage) :
    Decidable (area.Idle cfg conn iTable) :=
  inferInstanceAs (Decidable (∀ j < cfg.nElement, _))

/-- The unlock moves no entry that another's statement uses. -/
def StmtState.ClearOf (s : StmtState) (conn : Conn) (mode : UnlockMode) : Prop :=
  ∀ lock ∈ s.running, lock.1.conn ≠ conn →
    ∀ j < cfg.nElement, s.pTableLock.HasAt cfg lock.1.conn lock.2 j →
      s.pTableLock.Settled cfg conn mode j

instance (s : StmtState) (conn : Conn) (mode : UnlockMode) :
    Decidable (s.ClearOf cfg conn mode) :=
  inferInstanceAs (Decidable (∀ lock ∈ s.running, _))

/-- The condition on a step. A lock that is held is in use. At the end of a statement or a
transaction, its connection runs no other statement, and no entry in use by others is moved. A
commit that has the exclusive lock is not opposed by an entry in use. -/
def TableSafe (s : StmtState) : TableAction → Prop
  | .lock stmt iTable eLock => ∀ idx < cfg.nElement, s.pTableLock.HasAt cfg stmt.conn iTable idx →
      eLock.level ≤ (s.pTableLock.pElement idx).eLock.level →
      (s.pTableLock.pElement idx).inUse = true
  | .stmtEnd stmt => (∀ lock ∈ s.running, lock.1.conn = stmt.conn → lock.1 = stmt) ∧
      s.ClearOf cfg stmt.conn .stmt
  | .commit conn iTable => ∀ idx < cfg.nElement, s.pTableLock.HasAt cfg conn iTable idx →
      (s.pTableLock.pElement idx).eLock = .exclsv → s.pTableLock.Idle cfg conn iTable
  | .transEnd conn => (∀ lock ∈ s.running, lock.1.conn ≠ conn) ∧ s.ClearOf cfg conn .trans

instance (s : StmtState) : (action : TableAction) → Decidable (TableSafe cfg s action)
  | .lock _ _ _ => inferInstanceAs (Decidable (∀ idx < cfg.nElement, _))
  | .stmtEnd _ => inferInstanceAs (Decidable (_ ∧ _))
  | .commit _ _ => inferInstanceAs (Decidable (∀ idx < cfg.nElement, _))
  | .transEnd _ => inferInstanceAs (Decidable (_ ∧ _))

/-- Every running statement has an entry in use. -/
structure Protected (s : StmtState) : Prop where
  lawful : s.pTableLock.Lawful cfg
  flagged : ∀ lock ∈ s.running, ∃ idx, s.pTableLock.HasAt cfg lock.1.conn lock.2 idx ∧
    (s.pTableLock.pElement idx).inUse = true

end

section

variable {cfg : TableConfig} {area area' : TableArea} {conn : Conn} {mode : UnlockMode}

/-- The content decides the holder. -/
theorem TableElement.heldBy_congr {a b : TableElement} {pHandle : Handle}
    (same : a.content = b.content) : a.heldBy pHandle ↔ b.heldBy pHandle := by
  rw [heldBy_iff, heldBy_iff, ← key_content a, ← key_content b, same]

/-- The content decides whether the entry goes. -/
theorem TableElement.endsIn_congr {a b : TableElement} (same : a.content = b.content) :
    a.endsIn mode ↔ b.endsIn mode := by
  have table : a.content.iTable = b.content.iTable := by rw [same]
  have level : a.content.eLock = b.content.eLock := by rw [same]
  change a.iTable = b.iTable at table
  change a.eLock = b.eLock at level
  unfold endsIn
  rw [table, level]

/-- What every unlock keeps: the entries in use of others, with nothing to be removed before them.
-/
structure Guards (cfg : TableConfig) (conn : Conn) (mode : UnlockMode)
    (locks : List (Statement × RootPage)) (area : TableArea) : Prop where
  lawful : area.Lawful cfg
  others : ∀ lock ∈ locks, lock.1.conn ≠ conn → ∃ j, area.HasAt cfg lock.1.conn lock.2 j ∧
    (area.pElement j).inUse = true ∧ area.Settled cfg conn mode j

/-- One unlock. -/
theorem Guards.unlock {locks : List (Statement × RootPage)} {iTable : RootPage}
    (guards : Guards cfg conn mode locks area)
    (outcome : area.UnlockOutcome cfg conn.1 iTable mode area') :
    Guards cfg conn mode locks area' := by
  refine ⟨outcome.lawful guards.lawful, fun lock member other => ?_⟩
  obtain ⟨j, has, flagged, front⟩ := guards.others lock member other
  -- The entry of the other connection is in another slot.
  have apart : ∀ {idx}, area.HasAt cfg conn iTable idx → j ≠ idx := by
    intro idx mine here
    have key := has.2
    rw [here, mine.2] at key
    exact other (Subtype.ext (congrArg Prod.snd key).symm)
  cases outcome with
  | absent => exact ⟨j, has, flagged, front⟩
  | @removed owner idx same mine ends =>
    obtain rfl := TableArea.matches_conn.1 same
    have notBehind := front idx mine.1 mine.heldBy ⟨mine.iTable_eq ▸ iTable.2, ends⟩
    obtain ⟨same, frame⟩ := guards.lawful.ring.remove_frame tableClass_lawful mine.1 mine.valid
      has.1 (apart mine) notBehind
    generalize removeSlot tableClass cfg.nElement area (home tableClass area.pElement idx) idx =
      area' at same frame
    refine ⟨j, ⟨has.1, same ▸ has.2⟩, same ▸ flagged, fun i bound held ends behind => ?_⟩
    obtain ⟨behind, unmoved⟩ := frame i bound behind
    rw [unmoved] at held ends
    exact front i bound held ends behind
  | @reset owner idx same mine stays =>
    obtain rfl := TableArea.matches_conn.1 same
    have unmoved : Function.update area.pElement idx { area.pElement idx with inUse := false } j =
        area.pElement j := Function.update_of_ne (apart mine) _ _
    refine ⟨j, ⟨has.1, (congrArg TableElement.key unmoved).trans has.2⟩,
      (congrArg TableElement.inUse unmoved).trans flagged, fun i bound held ends behind => ?_⟩
    -- Only a flag changed, so every slot is as used and as much the connection's as before.
    refine front i bound ((TableElement.heldBy_congr (TableArea.content_reset i)).1 held)
      ((TableElement.endsIn_congr (TableArea.content_reset i)).1 ends)
      ⟨behind.1, fun k target near => ?_⟩
    rw [← tableClass_lawful.valid _ _ (TableArea.content_reset k)]
    exact behind.2 k target near

variable {s : StmtState}

/-- The condition on a step gives what its unlocks keep. -/
theorem Protected.guards (held : Protected cfg s) (clear : s.ClearOf cfg conn mode) :
    Guards cfg conn mode s.running s.pTableLock := by
  refine ⟨held.lawful, fun lock member other => ?_⟩
  obtain ⟨j, has, flagged⟩ := held.flagged lock member
  exact ⟨j, has, flagged, clear lock member other j has.1 has⟩

/-- A release keeps the entries in use of others. -/
theorem Protected.release {locks : List (Statement × RootPage)} (held : Protected cfg s)
    (clear : s.ClearOf cfg conn mode) (kept : ∀ lock ∈ locks, lock ∈ s.running ∧ lock.1.conn ≠ conn) :
    Protected cfg ⟨sqlite3rowlockIpcUnlockTablesProcCore cfg conn.1 conn.1.pid mode s.pTableLock,
      locks⟩ := by
  have guards := unlockTablesProcCore_induct conn.1 conn.1.pid mode
    (fun area iTable (guards : Guards cfg conn mode s.running area) =>
      guards.unlock (guards.lawful.unlockTable_outcome conn.1 iTable mode)) (held.guards clear)
  refine ⟨guards.lawful, fun lock member => ?_⟩
  obtain ⟨present, other⟩ := kept lock member
  obtain ⟨j, has, flagged, -⟩ := guards.others lock present other
  exact ⟨j, has, flagged⟩

/-- Every safe step. -/
theorem Protected.step {action : TableAction} (held : Protected cfg s)
    (safe : TableSafe cfg s action) : Protected cfg (tableStep cfg s action) := by
  cases action with
  | lock stmt iTable eLock =>
    have outcome := held.lawful.lockTable_outcome stmt.conn iTable eLock .normal
    have kept : ∀ lock ∈ s.running, ∃ j,
        TableArea.HasAt cfg (tableStep cfg s (.lock stmt iTable eLock)).pTableLock lock.1.conn
            lock.2 j ∧
          ((tableStep cfg s (.lock stmt iTable eLock)).pTableLock.pElement j).inUse = true := by
      intro lock present
      obtain ⟨j, has, flagged⟩ := held.flagged lock present
      exact outcome.flag_kept held.lawful has flagged
    refine ⟨outcome.lawful held.lawful, fun lock member => ?_⟩
    simp only [tableStep] at member
    split_ifs at member with granted
    · rcases List.mem_cons.1 member with rfl | present
      · exact outcome.flagged granted (by decide) fun idx has enough => safe idx has.1 has enough
      · exact kept lock present
    · exact kept lock member
  | stmtEnd stmt =>
    refine held.release safe.2 fun lock member => ?_
    obtain ⟨present, other⟩ := List.mem_filter.1 member
    exact ⟨present, fun same => of_decide_eq_true other (safe.1 lock present same)⟩
  | commit conn iTable =>
    have outcome := held.lawful.lockTable_outcome conn iTable .exclsv .commit
    refine ⟨outcome.lawful held.lawful, fun lock present => ?_⟩
    obtain ⟨j, has, flagged⟩ := held.flagged lock present
    exact outcome.flag_kept held.lawful has flagged
  | transEnd conn =>
    exact held.release safe.2 fun lock present => ⟨present, safe.1 lock present⟩

/-- At the start no statement runs. -/
theorem protected_init (cfg : TableConfig) : Protected cfg .init :=
  ⟨TableArea.init_lawful cfg, fun _ absurd => by cases absurd⟩

/-- No commit is granted over another's entry in use. -/
theorem Protected.commit_refused {stmt : Statement} {iTable : RootPage} (held : Protected cfg s)
    (safe : TableSafe cfg s (.commit conn iTable)) (normal : iTable.1 ≠ schemaRoot)
    (running : (stmt, iTable) ∈ s.running) (other : stmt.conn ≠ conn) :
    (commitLock cfg s conn iTable).1 ≠ .ok := by
  intro granted
  obtain ⟨j, has, flagged⟩ := held.flagged _ running
  have foreign : ¬ (s.pTableLock.pElement j).heldBy conn.1 := by
    rw [TableElement.heldBy_iff, has.2]
    exact fun same => other (Subtype.ext same)
  have fresh : ∀ idx, s.pTableLock.HasAt cfg conn iTable idx →
      ¬ TableLock.exclsv.level ≤ (s.pTableLock.pElement idx).eLock.level := by
    intro idx mine enough
    have exclusive : (s.pTableLock.pElement idx).eLock = .exclsv := by
      cases level : (s.pTableLock.pElement idx).eLock <;> rw [level] at enough <;>
        simp [TableLock.level] at enough ⊢
    have idle := safe idx mine.1 mine exclusive j has.1 has.iTable_eq foreign
    rw [idle] at flagged
    cases flagged
  have outcome := held.lawful.lockTable_outcome conn iTable .exclsv .commit
  refine outcome.unopposed granted (by decide) fresh j has.1 has.iTable_eq foreign ?_
  unfold TableElement.refuses
  rw [if_neg (has.iTable_eq ▸ normal)]
  exact Or.inr (Or.inr (Or.inr ⟨rfl, flagged⟩))

end

/-- In a run whose steps all meet the condition, no commit that meets it is granted on a table other
than the schema table while another connection's statement works on that table. -/
theorem commit_refused_during_statement (cfg : TableConfig) (actions : List TableAction)
    (guarded : Guarded (tableStep cfg) (TableSafe cfg) .init actions) (conn : Conn)
    (iTable : RootPage) (normal : iTable.1 ≠ schemaRoot)
    (safe : TableSafe cfg (run (tableStep cfg) .init actions) (.commit conn iTable))
    (stmt : Statement) (running : (stmt, iTable) ∈ (run (tableStep cfg) .init actions).running)
    (other : stmt.conn ≠ conn) :
    (commitLock cfg (run (tableStep cfg) .init actions) conn iTable).1 ≠ .ok := by
  have held := guarded.invariant (fun s action held safe => Protected.step held safe)
    (protected_init cfg)
  exact held.commit_refused safe normal running other

/-- A commit of B while A writes the table. -/
theorem commit_refused_during_write :
    let actions : List TableAction := [.lock ⟨connA, 0⟩ tableTwo .write]
    let s := run (tableStep (tableConfig 4 (by decide))) .init actions
    Guarded (tableStep (tableConfig 4 (by decide))) (TableSafe (tableConfig 4 (by decide))) .init
        actions ∧
      TableSafe (tableConfig 4 (by decide)) s (.commit connB tableTwo) ∧
      (⟨connA, 0⟩, tableTwo) ∈ s.running ∧
      (commitLock (tableConfig 4 (by decide)) s connB tableTwo).1 ≠ .ok :=
  ⟨by decide, by decide, by decide, commit_refused_during_statement (tableConfig 4 (by decide))
    [.lock ⟨connA, 0⟩ tableTwo .write] (by decide) connB tableTwo (by decide) (by decide)
    ⟨connA, 0⟩ (by decide) (by decide)⟩

/-- A statement that reads a table its transaction wrote leaves the lock unmarked; the commit of
another connection is granted while it runs. -/
theorem commit_granted_during_read :
    let actions : List TableAction := [.lock ⟨connA, 0⟩ tableTwo .write, .stmtEnd ⟨connA, 0⟩,
      .lock ⟨connA, 1⟩ tableTwo .read]
    let s := run (tableStep (tableConfig 4 (by decide))) .init actions
    (⟨connA, 1⟩, tableTwo) ∈ s.running ∧ tableTwo.1 ≠ schemaRoot ∧ connA ≠ connB ∧
      (commitLock (tableConfig 4 (by decide)) s connB tableTwo).1 = .ok := by
  decide

end SQLumDash.Ipc
