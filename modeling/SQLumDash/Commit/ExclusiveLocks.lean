import SQLumDash.Commit.LockTables
import SQLumDash.Ipc.TableCompat
import SQLumDash.Ipc.TableLevel

/-!
# What a commit locks

When all requests are granted, the exclusive lock is held on exactly the tables with inserted or
deleted rows, besides those it was held on before. A table that was only cleared is not among them,
because its cursor does not carry the flag.
-/

namespace SQLumDash.Commit

open Ipc

variable {Key Data : Type} {cfg : TableConfig} {conn other : Conn} {faults : LockFaults}
  {table : TransTable Key Data} {tables : List (TransTable Key Data)} {area : TableArea}

/-- A modified table has inserted or deleted rows. -/
theorem inspect_ok {modified : Bool} (inspected : inspect faults table = .ok modified) :
    modified = true ↔ table.ins ≠ [] ∨ table.del ≠ [] := by
  unfold inspect isTableModified transBtreeCursor at inspected
  split at inspected
  · cases inspected
  · simp only [Bool.false_eq_true, if_false] at inspected
    split at inspected
    · cases inspected
    · split_ifs at inspected with empty
      · split at inspected
        · cases inspected
        · cases inspected
          simp [List.isEmpty_iff.1 empty]
      · cases inspected
        simp [List.isEmpty_iff.not.1 empty]

/-- The level after the exclusive lock is granted. -/
theorem level_exclsv {level : TableLock} :
    (if TableLock.exclsv.level ≤ level.level then level else .exclsv) = .exclsv := by
  cases level <;> decide

/-- A loop in which every request is granted locks the tables with rows, and leaves other levels. -/
theorem lockTablesLoop_ok (distinct : (tables.map TransTable.iTable).Nodup) :
    ∀ {area : TableArea}, area.Lawful cfg →
      (lockTablesLoop cfg conn faults tables area).1 = .ok →
      let area' := (lockTablesLoop cfg conn faults tables area).2.1
      area'.Lawful cfg ∧
      (∀ table ∈ tables, table.ins ≠ [] ∨ table.del ≠ [] →
        area'.level cfg conn table.iTable = .exclsv) ∧
      (∀ other iTable, (∀ table ∈ tables, table.ins ≠ [] ∨ table.del ≠ [] →
        ¬ (other = conn ∧ iTable = table.iTable)) →
        area'.level cfg other iTable = area.level cfg other iTable) := by
  induction tables with
  | nil => exact fun lawful _ => ⟨lawful, by simp, fun _ _ _ => rfl⟩
  | cons table rest ih =>
    intro area lawful granted
    obtain ⟨fresh, distinct⟩ := List.nodup_cons.1 distinct
    unfold lockTablesLoop at granted ⊢
    cases inspected : inspect faults table with
    | error failure =>
      rw [inspected] at granted
      exact absurd granted failure.2
    | ok modified =>
      have rows := inspect_ok inspected
      cases modified with
      | false =>
        simp only [inspected] at granted ⊢
        have idle : ¬ (table.ins ≠ [] ∨ table.del ≠ []) := fun any => nomatch rows.2 any
        obtain ⟨after, locked, frame⟩ := ih distinct lawful granted
        refine ⟨after, fun each member any => ?_, fun other iTable apart => ?_⟩
        · rcases List.mem_cons.1 member with rfl | later
          · exact absurd any idle
          · exact locked each later any
        · exact frame other iTable fun each later => apart each (List.mem_cons_of_mem _ later)
      | true =>
        simp only [inspected] at granted ⊢
        have outcome := lawful.lockTable_outcome conn table.iTable .exclsv .commit
        have between := outcome.lawful lawful
        have own := outcome.level_granted lawful (by decide)
        have frame' := fun other iTable (apart : ¬ (other = conn ∧ iTable = table.iTable)) =>
          outcome.level_frame lawful apart
        generalize sqlite3rowlockIpcLockTable cfg conn.1 area table.iTable.1 .exclsv .commit =
          request at granted between own frame'
        by_cases answer : request.1 = .ok
        · simp only [answer, if_true] at granted ⊢
          obtain ⟨after, locked, frame⟩ := ih distinct between granted
          refine ⟨after, fun each member any => ?_, fun other iTable apart => ?_⟩
          · rcases List.mem_cons.1 member with rfl | later
            · rw [frame conn each.iTable fun one later _ same => fresh
                (List.mem_map.2 ⟨one, later, same.2.symm⟩), own answer, level_exclsv]
            · exact locked each later any
          · rw [frame other iTable fun each later => apart each (List.mem_cons_of_mem _ later)]
            exact frame' other iTable (apart table List.mem_cons_self (rows.1 rfl))
        · simp only [answer, if_false] at granted

/-- The replay changes the shared tree of the table. -/
def Replayed (shared : RootPage → Key → Option Data) (table : TransTable Key Data) : Prop :=
  table.ins ≠ [] ∨ table.del ≠ [] ∨
    (table.root.deleteAll = true ∧ ∃ key, shared table.iTable key ≠ none)

/-- Only cleared, and there are rows to clear. -/
def OnlyCleared (shared : RootPage → Key → Option Data) (table : TransTable Key Data) : Prop :=
  table.ins = [] ∧ table.del = [] ∧ table.root.deleteAll = true ∧
    ∃ key, shared table.iTable key ≠ none

/-- A commit that is granted met no failure before its loop. -/
theorem granted_inv {tables : RootPages Key Data} (present : tables.1 ≠ [])
    (granted : (exclusiveLockTables cfg conn faults tables area).1 = .ok) :
    faults.pCur = false ∧ (lockMaster cfg conn area).1 = .ok ∧ faults.arrays = false := by
  have some_ : tables.1.isEmpty = false := by simpa using present
  unfold exclusiveLockTables at granted
  rw [some_] at granted
  cases alloc : faults.pCur with
  | true =>
    rw [alloc] at granted
    cases granted
  | false =>
    by_cases master : (lockMaster cfg conn area).1 = .ok
    · cases arrays : faults.arrays with
      | true => simp [alloc, master, arrays] at granted
      | false => exact ⟨rfl, master, rfl⟩
    · simp [alloc, master] at granted

/-- The levels after granted requests. -/
theorem exclusiveLockTables_ok {tables : RootPages Key Data} (lawful : area.Lawful cfg)
    (granted : (exclusiveLockTables cfg conn faults tables area).1 = .ok)
    (member : table ∈ tables.1) :
    (exclusiveLockTables cfg conn faults tables area).2.level cfg conn table.iTable =
      if table.ins ≠ [] ∨ table.del ≠ [] then .exclsv
      else area.level cfg conn table.iTable := by
  have outcome := lawful.lockTable_outcome conn schemaTable .write .commit
  have schemaFrame : (lockMaster cfg conn area).2.1.level cfg conn table.iTable =
      area.level cfg conn table.iTable := outcome.level_frame lawful
    fun same => table.notSchema (congrArg Subtype.val same.2)
  have present : tables.1 ≠ [] := List.ne_nil_of_mem member
  obtain ⟨alloc, master, arrays⟩ := granted_inv present granted
  rw [exclusiveLockTables_eq cfg conn alloc present master arrays] at granted ⊢
  by_cases loop : (lockTablesLoop cfg conn faults tables.1 (lockMaster cfg conn area).2.1).1 = .ok
  · rw [if_pos loop]
    obtain ⟨after, locked, frame⟩ := lockTablesLoop_ok tables.2 (outcome.lawful lawful) loop
    split_ifs with any
    · exact locked table member any
    · refine (frame conn table.iTable fun each other rows same => any ?_).trans schemaFrame
      obtain rfl := List.inj_on_of_nodup_map tables.2 member other same.2
      exact rows
  · rw [if_neg loop] at granted
    exact absurd granted loop

/-- When all requests of a commit are granted, the connection has the exclusive lock on every table
the replay changes exactly when it had it before on every table that was only cleared. -/
theorem exclusiveLockTables_covers_iff (cfg : TableConfig) (calls : List TableCall) (conn : Conn)
    (faults : LockFaults) (tables : RootPages Key Data) (shared : RootPage → Key → Option Data)
    (granted : (exclusiveLockTables cfg conn faults tables (TableArea.after cfg calls)).1 = .ok) :
    (∀ table ∈ tables.1, Replayed shared table →
      (exclusiveLockTables cfg conn faults tables (TableArea.after cfg calls)).2.level cfg conn
        table.iTable = .exclsv) ↔
      ∀ table ∈ tables.1, OnlyCleared shared table →
        (TableArea.after cfg calls).level cfg conn table.iTable = .exclsv := by
  have lawful := TableArea.after_lawful cfg calls
  constructor
  · intro covered table member cleared
    have held := covered table member (Or.inr (Or.inr cleared.2.2))
    rwa [exclusiveLockTables_ok lawful granted member,
      if_neg (by simp [cleared.1, cleared.2.1])] at held
  · intro before table member replayed
    rw [exclusiveLockTables_ok lawful granted member]
    split_ifs with rows
    · rfl
    · push Not at rows
      have flagged := (replayed.resolve_left (· rows.1)).resolve_left (· rows.2)
      exact before table member ⟨rows.1, rows.2, flagged⟩

/-- No call fails. -/
def LockFaults.none : LockFaults := ⟨false, false, fun _ => ⟨.none, .none, .none⟩⟩

/-- A table with one inserted row. -/
def oneInsert : RootPages Int Nat :=
  ⟨[⟨tableTwo, tableTwo_ne_schemaRoot, ⟨3, 4, false⟩, [(1, 7)], [], by decide⟩], by decide⟩

/-- A table with an inserted row is locked. -/
theorem exclusiveLockTables_covers_insert :
    let cfg := tableConfig 4 (by decide)
    let area := TableArea.after cfg [.lock connA tableTwo .write .normal]
    (exclusiveLockTables cfg connA .none oneInsert area).1 = .ok ∧
      ((∀ table ∈ oneInsert.1, Replayed (fun _ _ => none) table →
        (exclusiveLockTables cfg connA .none oneInsert area).2.level cfg connA table.iTable =
          .exclsv) ↔
        ∀ table ∈ oneInsert.1, OnlyCleared (fun _ _ => none) table →
          area.level cfg connA table.iTable = .exclsv) :=
  ⟨by decide, exclusiveLockTables_covers_iff (tableConfig 4 (by decide))
    [.lock connA tableTwo .write .normal] connA .none oneInsert (fun _ _ => none) (by decide)⟩

/-- A table that was cleared and not written to. -/
def onlyCleared : RootPages Int Nat :=
  ⟨[⟨tableTwo, by decide, ⟨0, 0, true⟩, [], [], by decide⟩], by decide⟩

/-- A shared tree with one row. -/
def oneRow : RootPage → Int → Option Nat := fun _ key => if key = 1 then some 7 else none

/-- A transaction that deleted all rows of a table commits without the exclusive lock on it. -/
theorem cleared_table_not_locked :
    let cfg := tableConfig 4 (by decide)
    let area := TableArea.after cfg [.lock connA tableTwo .writeEx .normal]
    (exclusiveLockTables cfg connA .none onlyCleared area).1 = .ok ∧
      (∀ table ∈ onlyCleared.1, table.root.deleteAll = true ∧
        oneRow table.iTable 1 = some 7) ∧
      (exclusiveLockTables cfg connA .none onlyCleared area).2.level cfg connA tableTwo =
        .writeEx := by
  decide

end SQLumDash.Commit
