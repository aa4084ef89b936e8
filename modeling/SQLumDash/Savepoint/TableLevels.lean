import SQLumDash.Ipc.TableQuery
import SQLumDash.Savepoint.RootPages

/-!
# Table locks after a rollback to a savepoint

The undo of a table lock sets the level back. The undo of a creation does the same with the level
zero, also for a table that was locked before. The level at the savepoint is restored unless the
first record of the table since then is a creation and the table was locked.
-/

namespace SQLumDash.Savepoint

open Ipc Psm Runs

variable {Key : Type} {cfg : Config Key} {conn : Conn} {s s' s'' : TransState Key}
  {iTable t : RootPage} {eLock level start : TableLock}
  {newer records new : List (RowLockHistory Key)} {history : RowLockHistory Key}

/-- The undo of a record changes the level on this table. -/
def Locks (t : RootPage) (history : RowLockHistory Key) : Bool :=
  decide (history.iTable = t ∧ (history.type = .newTable ∨ history.type = .tableLock))

/-- One call on the level of a table, with its records. -/
inductive LevelStep (t : RootPage) : TableLock → List (RowLockHistory Key) → TableLock → Prop
  | kept (level : TableLock) : LevelStep t level [] level
  | raised {level eLock : TableLock} (higher : level.level < eLock.level) :
      LevelStep t level [historyTableLock t level] eLock
  | created (level : TableLock) (normal : t.1 ≠ schemaRoot) :
      LevelStep t level [historyNewTable t] level

/-- Without a record the level stays. -/
theorem LevelStep.same {level' : TableLock}
    (step : LevelStep t level ([] : List (RowLockHistory Key)) level') : level' = level := by
  cases step
  rfl

/-- What a successful call does to the table locks. -/
structure LockEffect (cfg : Config Key) (conn : Conn) (s s' : TransState Key)
    (new : List (RowLockHistory Key)) : Prop where
  open_ : s'.inTransaction = true
  history : s'.lockSavepoint.pHistory = new ++ s.lockSavepoint.pHistory
  grows : s.env.stores.tables.Grows cfg.table conn s'.env.stores.tables
  tidy : s'.env.stores.tables.Tidy
  levels : ∀ t, LevelStep t (s.env.stores.tables.level cfg.table conn t) (new.filter (Locks t))
    (s'.env.stores.tables.level cfg.table conn t)
  entry : ∀ t, (∃ history ∈ new, history.type = .tableLock ∧ history.iTable = t) →
    ∃ idx, s'.env.stores.tables.HasAt cfg.table conn t idx

/-- A write transaction over a lawful and tidy area. -/
structure Lockable (cfg : Config Key) (s : TransState Key) : Prop where
  open_ : s.inTransaction = true
  lawful : s.env.stores.tables.Lawful cfg.table
  tidy : s.env.stores.tables.Tidy

/-- It stays lockable. -/
theorem LockEffect.lockable (effect : LockEffect cfg conn s s' new) : Lockable cfg s' :=
  ⟨effect.open_, effect.grows.lawful, effect.tidy⟩

/-- Records that do not lock are not looked at. -/
theorem filter_locks_nil
    (types : ∀ history ∈ new, history.type ≠ .newTable ∧ history.type ≠ .tableLock)
    (t : RootPage) : new.filter (Locks t) = [] := by
  apply List.filter_eq_nil_iff.2
  intro history member locks
  obtain ⟨-, type⟩ := of_decide_eq_true locks
  rcases type with type | type
  · exact (types history member).1 type
  · exact (types history member).2 type

/-- A record of the table. -/
theorem filter_locks_self (same : history.iTable = t)
    (type : history.type = .newTable ∨ history.type = .tableLock) :
    [history].filter (Locks t) = [history] := by
  have locks : Locks t history = true := decide_eq_true ⟨same, type⟩
  rw [List.filter_cons_of_pos locks, List.filter_nil]

/-- A record of another table. -/
theorem filter_locks_other (other : history.iTable ≠ t) : [history].filter (Locks t) = [] := by
  have quiet : ¬ Locks t history = true := fun locks => other (of_decide_eq_true locks).1
  rw [List.filter_cons_of_neg quiet, List.filter_nil]

/-- A call that leaves the table locks alone. -/
theorem lockEffect_of_same (lockable : Lockable cfg s) (open_ : s'.inTransaction = true)
    (history : s'.lockSavepoint.pHistory = new ++ s.lockSavepoint.pHistory)
    (tables : s'.env.stores.tables = s.env.stores.tables)
    (types : ∀ history ∈ new, history.type ≠ .newTable ∧ history.type ≠ .tableLock) :
    LockEffect cfg conn s s' new where
  open_ := open_
  history := history
  grows := by
    rw [tables]
    exact .refl lockable.lawful
  tidy := by
    rw [tables]
    exact lockable.tidy
  levels t := by
    rw [tables, filter_locks_nil types]
    exact .kept _
  entry t := by
    rintro ⟨history, member, type, -⟩
    exact absurd type (types history member).2

/-- A call after one or before one that records no lock. -/
theorem LockEffect.andThen {new' : List (RowLockHistory Key)} (first : LockEffect cfg conn s s' new)
    (second : LockEffect cfg conn s' s'' new')
    (quiet : (∀ t, new.filter (Locks t) = []) ∨ ∀ t, new'.filter (Locks t) = []) :
    LockEffect cfg conn s s'' (new' ++ new) where
  open_ := second.open_
  history := by rw [second.history, first.history, List.append_assoc]
  grows := first.grows.trans second.grows
  tidy := second.tidy
  levels t := by
    have levels := first.levels t
    have levels' := second.levels t
    rw [List.filter_append]
    rcases quiet with none_ | none_
    · rw [none_ t] at levels
      rw [none_ t, List.append_nil, ← levels.same]
      exact levels'
    · rw [none_ t] at levels'
      rw [none_ t, List.nil_append, levels'.same]
      exact levels
  entry t := by
    rintro ⟨history, member, kind⟩
    rcases List.mem_append.1 member with inside | inside
    · exact second.entry t ⟨history, inside, kind⟩
    · obtain ⟨idx, has⟩ := first.entry t ⟨history, inside, kind⟩
      exact ⟨idx, second.grows.hasAt has⟩

/-- A granted request raises the level, or leaves it. -/
theorem lockTable_climbs {area : TableArea} {result : Rc × TableArea × Option TableLock}
    (outcome : area.LockOutcome cfg.table conn iTable eLock .normal result)
    (lawful : area.Lawful cfg.table) (tidy : area.Tidy) (granted : result.1 = .ok) :
    (¬ eLock.level > (result.2.2.getD eLock).level ∧
      result.2.1.level cfg.table conn iTable = area.level cfg.table conn iTable) ∨
    (result.2.2.getD eLock = area.level cfg.table conn iTable ∧
      eLock.level > (result.2.2.getD eLock).level ∧
      result.2.1.level cfg.table conn iTable = eLock ∧
      ∃ idx, result.2.1.HasAt cfg.table conn iTable idx) := by
  have after := outcome.lawful lawful
  cases outcome with
  | held => exact Or.inl ⟨Nat.lt_irrefl _, rfl⟩
  | refused | nomem => cases granted
  | force _ forced => cases forced
  | upgraded mine =>
    refine Or.inr ⟨(lawful.level_eq mine.1).symm, mine.2.1,
      TableArea.LockOutcome.level_written after mine.1.1, _, (TableArea.hasAt_valueSet mine.1.1).1⟩
  | @added slot bound vacant path absent =>
    have empty : (area.pElement slot).eLock = .notLocked := by
      apply tidy
      by_contra used
      rw [tableClass_valid_iff.2 used] at vacant
      cases vacant
    have written := TableArea.LockOutcome.level_written after bound
    rw [TableArea.level_absent absent]
    by_cases some_ : eLock.level > 0
    · exact Or.inr ⟨empty, by rwa [Option.getD_some, empty], written, _,
        (TableArea.hasAt_valueSet bound).1⟩
    · refine Or.inl ⟨by rwa [Option.getD_some, empty], written.trans ?_⟩
      cases eLock <;> first | rfl | exact absurd (by decide) some_

/-- The request is granted and raises the level. -/
def RaisesLevel (cfg : Config Key) (conn : Conn) (s : TransState Key) (iTable : RootPage)
    (eLock : TableLock) : Prop :=
  let locked := sqlite3rowlockIpcLockTable cfg.table conn.1 s.env.stores.tables iTable.1 eLock .normal
  locked.1 = .ok ∧ eLock.level > (locked.2.2.getD eLock).level

instance : Decidable (RaisesLevel cfg conn s iTable eLock) := inferInstanceAs (Decidable (_ ∧ _))

/-- A successful call has recorded its level. -/
theorem memory_of_success {memory : Bool}
    (success : (sqlite3rowlockIpcLockTableAndAddHistory cfg conn memory s iTable eLock).1 = .ok)
    (raises : RaisesLevel cfg conn s iTable eLock) : memory = true := by
  unfold sqlite3rowlockIpcLockTableAndAddHistory at success
  rw [if_pos raises.1, if_pos raises.2] at success
  cases memory with
  | true => rfl
  | false => cases success

/-- A deletion of all rows that succeeds got its table lock. -/
theorem clearTable_locked {calls : ClearCalls}
    (success : (sqlite3TransBtreeClearTable cfg conn calls s iTable).1 = .ok) :
    (sqlite3rowlockIpcLockTableAndAddHistory cfg conn calls.lockHistory s iTable .writeEx).1 =
      .ok := by
  unfold sqlite3TransBtreeClearTable at success
  by_contra refused
  rw [if_neg refused] at success
  exact refused success

section

variable (lockable : Lockable cfg s)

include lockable

/-- A table lock that is recorded when it raises the level. -/
theorem lockTable_effect (conn : Conn) {memory : Bool} (iTable : RootPage) (eLock : TableLock)
    (recorded : RaisesLevel cfg conn s iTable eLock → memory = true) :
    ∃ new, LockEffect cfg conn s
      (sqlite3rowlockIpcLockTableAndAddHistory cfg conn memory s iTable eLock).2 new := by
  have outcome := lockable.lawful.lockTable_outcome conn iTable eLock .normal
  have grows := outcome.grows lockable.lawful
  have tidy := outcome.tidy lockable.tidy
  have frame : ∀ t, t ≠ iTable →
      (sqlite3rowlockIpcLockTable cfg.table conn.1 s.env.stores.tables iTable.1 eLock
        .normal).2.1.level cfg.table conn t = s.env.stores.tables.level cfg.table conn t :=
    fun t other => outcome.level_frame lockable.lawful fun same => other same.2
  have climbs := lockTable_climbs outcome lockable.lawful lockable.tidy
  have unchanged := outcome.unchanged
  unfold RaisesLevel at recorded
  unfold sqlite3rowlockIpcLockTableAndAddHistory
  generalize sqlite3rowlockIpcLockTable cfg.table conn.1 s.env.stores.tables iTable.1 eLock .normal =
    result at grows tidy frame climbs unchanged recorded
  by_cases granted : result.1 = .ok
  · simp only [granted, if_true, true_and] at recorded ⊢
    rcases climbs granted with ⟨same, level⟩ | ⟨prev, higher, level, entry⟩
    · simp only [same, if_false]
      refine ⟨[], lockable.open_, rfl, grows, tidy, fun t => ?_, fun t recorded => ?_⟩
      · change LevelStep t _ [] (result.2.1.level cfg.table conn t)
        by_cases here : t = iTable
        · rw [here, level]
          exact .kept _
        · rw [frame t here]
          exact .kept _
      · obtain ⟨_, member, -⟩ := recorded
        cases member
    · obtain rfl : memory = true := recorded higher
      simp only [higher, if_true]
      refine ⟨[historyTableLock iTable (result.2.2.getD eLock)], lockable.open_, rfl, grows, tidy,
        fun t => ?_, fun t recorded => ?_⟩
      · change LevelStep t _ _ (result.2.1.level cfg.table conn t)
        by_cases here : t = iTable
        · have only : [historyTableLock iTable (result.2.2.getD eLock)].filter (Locks iTable) =
              ([historyTableLock iTable (result.2.2.getD eLock)] : List (RowLockHistory Key)) :=
            filter_locks_self rfl (Or.inr rfl)
          rw [here, only, level, prev]
          exact .raised (by rwa [← prev])
        · rw [frame t here, filter_locks_other fun same => here same.symm]
          exact .kept _
      · obtain ⟨_, member, -, table⟩ := recorded
        rw [List.mem_singleton.1 member] at table
        rw [← table]
        exact entry
  · simp only [granted, if_false]
    exact ⟨[], lockEffect_of_same lockable lockable.open_ rfl (unchanged granted)
      fun _ member => nomatch member⟩

/-- The index space. -/
theorem createIndexSpace_effect (conn : Conn) (calls : CreateCalls) (iTable : RootPage) :
    ∃ new, LockEffect cfg conn s (createIndexSpace calls s iTable).2 new ∧
      ∀ t, new.filter (Locks t) = [] := by
  have created : ∀ indexes, LockEffect cfg conn s { s with env.stores.indexes := indexes } [] :=
    fun _ => lockEffect_of_same lockable lockable.open_ rfl rfl (fun _ member => nomatch member)
  unfold createIndexSpace
  dsimp only
  split_ifs
  · cases calls.indexHistory with
    | true =>
      have type : ∀ history ∈ [(historyNewIndex iTable : RowLockHistory Key)],
          history.type ≠ .newTable ∧ history.type ≠ .tableLock := by
        intro history member
        rw [List.mem_singleton.1 member]
        exact ⟨nofun, nofun⟩
      exact ⟨[historyNewIndex iTable], lockEffect_of_same lockable lockable.open_ rfl rfl type,
        filter_locks_nil type⟩
    | false => exact ⟨[], created _, fun _ => rfl⟩
  · exact ⟨[], created _, fun _ => rfl⟩
  · exact ⟨[], lockEffect_of_same lockable lockable.open_ rfl rfl (fun _ member => nomatch member),
      fun _ => rfl⟩

/-- An association of a table with its trees, recorded or not. -/
theorem associate_lockEffect (calls : CreateCalls)
    (normal : iTable.1 ≠ schemaRoot) (iInsTable iDelTable : Pgno) :
    ∃ new, LockEffect cfg conn s (associate calls s iTable iInsTable iDelTable).2 new := by
  unfold associate
  cases addTransRootPage calls.memory s.env.rootPages iTable iInsTable.1 iDelTable.1 with
  | none =>
    exact ⟨[], lockEffect_of_same lockable lockable.open_ rfl rfl fun _ member => nomatch member⟩
  | some rootPages =>
    cases calls.history with
    | false =>
      exact ⟨[], lockEffect_of_same lockable lockable.open_ rfl rfl fun _ member => nomatch member⟩
    | true =>
      refine ⟨[historyNewTable iTable], lockable.open_, rfl, .refl lockable.lawful, lockable.tidy,
        fun t => ?_, ?_⟩
      · change LevelStep t _ _ (s.env.stores.tables.level cfg.table conn t)
        by_cases here : t = iTable
        · have only : [historyNewTable iTable].filter (Locks iTable) =
              ([historyNewTable iTable] : List (RowLockHistory Key)) :=
            filter_locks_self rfl (Or.inl rfl)
          rw [here, only]
          exact .created _ normal
        · rw [filter_locks_other fun same => here same.symm]
          exact .kept _
      · rintro t ⟨history, member, type, -⟩
        rw [List.mem_singleton.1 member] at type
        cases type

/-- A cursor. -/
theorem cursor_lockEffect (calls : CreateCalls) (iTable : RootPage) (wrFlag : Bool) :
    ∃ new, LockEffect cfg conn s (transBtreeCursor calls s iTable wrFlag).2 new := by
  have idle : ∃ new, LockEffect cfg conn s s new :=
    ⟨[], lockEffect_of_same lockable lockable.open_ rfl rfl fun _ member => nomatch member⟩
  unfold transBtreeCursor
  by_cases schema : iTable.1 = schemaRoot
  · rw [if_pos schema]
    exact idle
  · rw [if_neg schema]
    dsimp only
    split_ifs
    · exact idle
    · exact idle
    · unfold sqlite3TransBtreeCreateTable
      simp only [lockable.open_, if_true]
      cases calls.iInsTable with
      | none => exact idle
      | some iInsTable =>
        cases calls.iDelTable with
        | none => exact idle
        | some iDelTable =>
          obtain ⟨new, effect, quiet⟩ := createIndexSpace_effect lockable conn calls iTable
          split_ifs
          · obtain ⟨new', effect'⟩ :=
              associate_lockEffect effect.lockable calls schema iInsTable iDelTable
            exact ⟨new' ++ new, effect.andThen effect' (Or.inl quiet)⟩
          · exact ⟨new, effect⟩

/-- A successful deletion of all rows is recorded. -/
theorem setDeleteAll_lockEffect (conn : Conn) (calls : ClearCalls)
    (iTable : RootPage) (pRootPage : TransRootPage) (rootPages : RootPages) :
    ∃ new, LockEffect cfg conn s
        (setDeleteAll calls { s with env.rootPages := rootPages } iTable pRootPage).2 new ∧
      ∀ t, new.filter (Locks t) = [] := by
  have idle : LockEffect cfg conn s { s with env.rootPages := rootPages } [] :=
    lockEffect_of_same lockable lockable.open_ rfl rfl fun _ member => nomatch member
  unfold setDeleteAll
  cases calls.counts with
  | false => exact ⟨[], idle, fun _ => rfl⟩
  | true =>
    cases calls.history with
    | false => exact ⟨[], idle, fun _ => rfl⟩
    | true =>
      have type : ∀ history ∈ [(historyTableClear iTable pRootPage.deleteAll :
          RowLockHistory Key)], history.type ≠ .newTable ∧ history.type ≠ .tableLock := by
        intro history member
        rw [List.mem_singleton.1 member]
        exact ⟨nofun, nofun⟩
      exact ⟨[historyTableClear iTable pRootPage.deleteAll],
        lockEffect_of_same lockable lockable.open_ rfl rfl type, filter_locks_nil type⟩

/-- A deletion of all rows whose lock is recorded. -/
theorem clearTable_lockEffect (calls : ClearCalls) (iTable : RootPage)
    (recorded : RaisesLevel cfg conn s iTable .writeEx → calls.lockHistory = true) :
    ∃ new, LockEffect cfg conn s (sqlite3TransBtreeClearTable cfg conn calls s iTable).2 new := by
  obtain ⟨new, effect⟩ := lockTable_effect lockable conn iTable .writeEx recorded
  unfold sqlite3TransBtreeClearTable
  dsimp only
  generalize sqlite3rowlockIpcLockTableAndAddHistory cfg conn calls.lockHistory s iTable .writeEx =
    locked at effect
  split_ifs
  · cases clearedRootPage calls locked.2 iTable with
    | error rc => exact ⟨new, effect⟩
    | ok cleared =>
      obtain ⟨new', effect', quiet⟩ := setDeleteAll_lockEffect effect.lockable conn calls
        iTable cleared.1 cleared.2
      exact ⟨new' ++ new, effect.andThen effect' (Or.inr quiet)⟩
  · exact ⟨new, effect⟩
  · exact ⟨new, effect⟩

/-- What any successful call does to the table locks. -/
theorem transStep_lockEffect (call : TransCall Key)
    (success : (call.perform cfg conn s).1 = .ok) :
    ∃ new, LockEffect cfg conn s (transStep cfg conn s call) new := by
  cases call with
  | lockTable iTable eLock memory =>
    exact lockTable_effect lockable conn iTable eLock (memory_of_success success)
  | cursor iTable wrFlag calls => exact cursor_lockEffect lockable calls iTable wrFlag
  | clearTable iTable calls =>
    exact clearTable_lockEffect lockable calls iTable (memory_of_success (clearTable_locked success))
  | row records rows indexes =>
    refine ⟨records.map RowRecord.history,
      lockEffect_of_same lockable lockable.open_ rfl rfl fun history member => ?_⟩
    obtain ⟨record, -, rfl⟩ := List.mem_map.1 member
    cases record <;> exact ⟨nofun, nofun⟩

end

/-- The levels since a savepoint, with their records. -/
inductive Climb (t : RootPage) (start : TableLock) : List (RowLockHistory Key) → TableLock → Prop
  | refl : Climb t start [] start
  | raised {records : List (RowLockHistory Key)} {level eLock : TableLock}
      (climb : Climb t start records level) (higher : level.level < eLock.level) :
      Climb t start (historyTableLock t level :: records) eLock
  | created {records : List (RowLockHistory Key)} {level : TableLock}
      (climb : Climb t start records level) (normal : t.1 ≠ schemaRoot) :
      Climb t start (historyNewTable t :: records) level

/-- One call more. -/
theorem Climb.step {level' : TableLock} (climb : Climb t start records level)
    (step : LevelStep t level new level') : Climb t start (new ++ records) level' := by
  cases step with
  | kept => exact climb
  | raised higher => exact climb.raised higher
  | created normal => exact climb.created normal

/-- What successful calls leave of the levels at a savepoint. -/
structure LockRun (cfg : Config Key) (conn : Conn) (start now : TransState Key)
    (newer : List (RowLockHistory Key)) : Prop where
  lockable : Lockable cfg now
  history : now.lockSavepoint.pHistory = newer ++ start.lockSavepoint.pHistory
  grows : start.env.stores.tables.Grows cfg.table conn now.env.stores.tables
  climbs : ∀ t, Climb t (start.env.stores.tables.level cfg.table conn t) (newer.filter (Locks t))
    (now.env.stores.tables.level cfg.table conn t)
  entry : ∀ t, (∃ history ∈ newer, history.type = .tableLock ∧ history.iTable = t) →
    ∃ idx, now.env.stores.tables.HasAt cfg.table conn t idx

/-- The call returns `SQLITE_OK`. -/
def Succeeds (cfg : Config Key) (conn : Conn) (s : TransState Key) (call : TransCall Key) : Prop :=
  (call.perform cfg conn s).1 = .ok

instance : DecidableRel (Succeeds cfg conn) := fun s call =>
  inferInstanceAs (Decidable ((call.perform cfg conn s).1 = .ok))

/-- Nothing happened. -/
theorem LockRun.refl (lockable : Lockable cfg s) : LockRun cfg conn s s [] where
  lockable := lockable
  history := rfl
  grows := .refl lockable.lawful
  climbs _ := .refl
  entry t := by
    rintro ⟨history, member, -⟩
    cases member

/-- One call more. -/
theorem LockRun.step {now now' : TransState Key} (reached : LockRun cfg conn s now newer)
    (effect : LockEffect cfg conn now now' new) : LockRun cfg conn s now' (new ++ newer) where
  lockable := effect.lockable
  history := by rw [effect.history, reached.history, List.append_assoc]
  grows := reached.grows.trans effect.grows
  climbs t := by
    rw [List.filter_append]
    exact (reached.climbs t).step (effect.levels t)
  entry t := by
    rintro ⟨history, member, kind⟩
    rcases List.mem_append.1 member with inside | inside
    · exact effect.entry t ⟨history, inside, kind⟩
    · obtain ⟨idx, has⟩ := reached.entry t ⟨history, inside, kind⟩
      exact ⟨idx, effect.grows.hasAt has⟩

/-- Any successful calls. -/
theorem lockRun (lockable : Lockable cfg s) {calls : List (TransCall Key)}
    (success : Guarded (transStep cfg conn) (Succeeds cfg conn) s calls) :
    ∃ newer, LockRun cfg conn s (run (transStep cfg conn) s calls) newer := by
  apply success.invariant (P := fun now => ∃ newer, LockRun cfg conn s now newer)
  · rintro now call ⟨newer, reached⟩ succeeds
    obtain ⟨new, effect⟩ := transStep_lockEffect reached.lockable call succeeds
    exact ⟨new ++ newer, reached.step effect⟩
  · exact ⟨[], .refl lockable⟩

/-- The level after the undo of a table's records, by the levels `granted`. -/
def undoLevel (granted : TableLock → Bool) (level : TableLock) (history : RowLockHistory Key) :
    TableLock :=
  if granted (.ofNumber history.prev) then .ofNumber history.prev else level

/-- A level is its number. -/
theorem ofNumber_level (level : TableLock) : TableLock.ofNumber level.level = level := by
  cases level <;> rfl

/-- On the schema table levels only rise. -/
theorem Climb.above (climb : Climb t start records level) (schema : t.1 = schemaRoot) :
    ∀ {front : List (RowLockHistory Key)} {first : RowLockHistory Key},
      records = front ++ [first] → start.level < level.level ∧
        ∀ history ∈ front, start.level < (TableLock.ofNumber history.prev).level := by
  induction climb with
  | refl => exact fun split => absurd split (by simp)
  | created _ normal => exact absurd schema normal
  | @raised records level eLock climb higher ih =>
    intro front first split
    cases front with
    | nil =>
      obtain ⟨-, rfl⟩ := List.cons.inj split
      cases climb
      exact ⟨higher, (fun _ member => nomatch member)⟩
    | cons newest rest =>
      obtain ⟨rfl, rest_⟩ := List.cons.inj split
      obtain ⟨above, others⟩ := ih rest_
      refine ⟨Nat.lt_trans above higher, fun history member => ?_⟩
      rcases List.mem_cons.1 member with rfl | inside
      · change start.level < (TableLock.ofNumber level.level).level
        rwa [ofNumber_level]
      · exact others history inside

/-- The undo of records above a level leaves a level above it. -/
theorem foldl_undoLevel_above (granted : TableLock → Bool) {low : Nat}
    (above : ∀ history ∈ records, low < (TableLock.ofNumber history.prev).level) :
    ∀ {level : TableLock}, low < level.level →
      low < (records.foldl (undoLevel granted) level).level := by
  induction records with
  | nil => exact fun above => above
  | cons history rest ih =>
    intro level higher
    apply ih fun each member => above each (List.mem_cons_of_mem _ member)
    unfold undoLevel
    split_ifs
    · exact above history List.mem_cons_self
    · exact higher

variable {granted : TableLock → Bool}

/-- Nothing is undone where nothing is granted. -/
theorem foldl_undoLevel_refused (refused : ∀ level, granted level = false) :
    ∀ {level : TableLock}, records.foldl (undoLevel granted) level = level := by
  induction records with
  | nil => exact rfl
  | cons history rest ih =>
    intro level
    rw [List.foldl_cons, ih]
    exact if_neg (by rw [refused]; decide)

/-- The level is restored exactly when the first record carries it and is granted, or is not and the
level has not changed. -/
theorem Climb.restored_iff (climb : Climb t start records level)
    (uniform : t.1 ≠ schemaRoot → ∀ one other, granted one = granted other) :
    records.foldl (undoLevel granted) level = start ↔
      ∀ first ∈ records.getLast?,
        if granted (.ofNumber first.prev) then .ofNumber first.prev = start else level = start := by
  rcases List.eq_nil_or_concat records with rfl | ⟨front, first, rfl⟩
  · cases climb
    simp
  · rw [List.concat_eq_append] at climb ⊢
    rw [List.foldl_append, List.foldl_cons, List.foldl_nil, List.getLast?_append,
      List.getLast?_singleton]
    simp only [Option.some_or, Option.mem_def, Option.some.injEq, forall_eq', undoLevel]
    by_cases given : granted (.ofNumber first.prev) = true
    · simp only [given, if_true]
    · simp only [given, if_false, Bool.false_eq_true]
      by_cases schema : t.1 = schemaRoot
      · obtain ⟨above, others⟩ := climb.above schema rfl
        have final := foldl_undoLevel_above granted others above
        constructor
        · intro same
          rw [same] at final
          exact absurd final (Nat.lt_irrefl _)
        · intro same
          rw [same] at above
          exact absurd above (Nat.lt_irrefl _)
      · have refused : ∀ level, granted level = false := fun level =>
          (uniform schema level _).trans (Bool.eq_false_iff.2 given)
        rw [foldl_undoLevel_refused refused]

/-- The first record carries the level at the savepoint, or zero. -/
theorem Climb.first_le {front : List (RowLockHistory Key)} {first : RowLockHistory Key} :
    ∀ {level : TableLock}, Climb t start (front ++ [first]) level →
      (TableLock.ofNumber first.prev).level ≤ start.level := by
  induction front with
  | nil =>
    intro level climb
    cases climb with
    | raised climb =>
      cases climb
      change (TableLock.ofNumber start.level).level ≤ start.level
      rw [ofNumber_level]
    | created => exact Nat.zero_le _
  | cons newest rest ih =>
    intro level climb
    rw [List.cons_append] at climb
    cases climb with
    | raised climb | created climb => exact ih climb

/-- The level is no higher exactly when the first record is granted, or it has not risen. -/
theorem Climb.lowered_iff (climb : Climb t start records level)
    (uniform : t.1 ≠ schemaRoot → ∀ one other, granted one = granted other) :
    (records.foldl (undoLevel granted) level).level ≤ start.level ↔
      ∀ first ∈ records.getLast?,
        granted (.ofNumber first.prev) = false → level.level ≤ start.level := by
  rcases List.eq_nil_or_concat records with rfl | ⟨front, first, rfl⟩
  · cases climb
    simp
  · rw [List.concat_eq_append] at climb ⊢
    rw [List.foldl_append, List.foldl_cons, List.foldl_nil, List.getLast?_append,
      List.getLast?_singleton]
    simp only [Option.some_or, Option.mem_def, Option.some.injEq, forall_eq', undoLevel]
    cases given : granted (.ofNumber first.prev) with
    | true => exact iff_of_true climb.first_le nofun
    | false =>
      simp only [Bool.false_eq_true, if_false, forall_const]
      by_cases schema : t.1 = schemaRoot
      · obtain ⟨above, others⟩ := climb.above schema rfl
        have final := foldl_undoLevel_above granted others above
        omega
      · have refused : ∀ level, granted level = false := fun level =>
          (uniform schema level _).trans given
        rw [foldl_undoLevel_refused refused]

/-- The undo of a record, as far as the table locks go. -/
theorem undoHistory_tables (env : TransEnv Key) (history : RowLockHistory Key) :
    (undoHistory cfg conn env history).stores.tables =
      if history.type = .newTable ∨ history.type = .tableLock then
        rowlockSavepointRollbackTableLock cfg conn env.stores.tables history.iTable history.prev
      else env.stores.tables := by
  unfold undoHistory
  cases history.type with
  | newTable | tableLock => rfl
  | index => cases history.p <;> rfl
  | tableClear => cases env.rootPages history.iTable <;> rfl
  | record | newIndex => rfl

variable {env : TransEnv Key}

/-- An undo removes no entry. -/
theorem undoHistory_grows (conn : Conn) (lawful : env.stores.tables.Lawful cfg.table)
    (history : RowLockHistory Key) : env.stores.tables.Grows cfg.table conn
      (undoHistory cfg conn env history).stores.tables := by
  rw [undoHistory_tables]
  split_ifs
  · exact (lawful.lockTable_outcome conn history.iTable (.ofNumber history.prev) .force).grows lawful
  · exact .refl lawful

/-- Nor does the undo of a history. -/
theorem foldl_undoHistory_grows (conn : Conn) (newer : List (RowLockHistory Key)) :
    ∀ {env : TransEnv Key}, env.stores.tables.Lawful cfg.table →
      env.stores.tables.Grows cfg.table conn
        (newer.foldl (undoHistory cfg conn) env).stores.tables := by
  induction newer with
  | nil => exact fun lawful => .refl lawful
  | cons history rest ih =>
    intro env lawful
    have first := undoHistory_grows conn lawful history
    exact first.trans (ih first.lawful)

/-- Other records leave the level. -/
theorem undoHistory_level_other (lawful : env.stores.tables.Lawful cfg.table)
    (quiet : Locks t history = false) :
    (undoHistory cfg conn env history).stores.tables.level cfg.table conn t =
      env.stores.tables.level cfg.table conn t := by
  rw [undoHistory_tables]
  split_ifs with locks
  · have outcome :=
      lawful.lockTable_outcome conn history.iTable (.ofNumber history.prev) .force
    refine outcome.level_frame lawful fun same => ?_
    exact absurd ⟨same.2.symm, locks⟩ (of_decide_eq_false quiet)
  · rfl

/-- The levels that a forced request is granted. -/
def Granted (cfg : Config Key) (conn : Conn) (tables : TableArea) (t : RootPage)
    (eLock : TableLock) : Bool :=
  decide ((sqlite3rowlockIpcLockTable cfg.table conn.1 tables t.1 eLock .force).1 = .ok)

/-- The undo of a record, with an entry. -/
theorem undoHistory_level {tables : TableArea} {idx : Nat} (lawful : tables.Lawful cfg.table)
    (has : tables.HasAt cfg.table conn t idx)
    (grows : tables.Grows cfg.table conn env.stores.tables) (locks : Locks t history = true) :
    (undoHistory cfg conn env history).stores.tables.level cfg.table conn t =
      undoLevel (Granted cfg conn tables t) (env.stores.tables.level cfg.table conn t) history := by
  obtain ⟨rfl, type⟩ := of_decide_eq_true locks
  have answer := grows.forced_answer lawful has (.ofNumber history.prev)
  have outcome :=
    grows.lawful.lockTable_outcome conn history.iTable (.ofNumber history.prev) .force
  rw [undoHistory_tables, if_pos type]
  unfold undoLevel Granted rowlockSavepointRollbackTableLock
  rw [← answer]
  by_cases granted : (sqlite3rowlockIpcLockTable cfg.table conn.1 env.stores.tables
      history.iTable.1 (.ofNumber history.prev) .force).1 = .ok
  · rw [if_pos (decide_eq_true granted)]
    exact outcome.level_forced grows.lawful granted (grows.hasAt has)
  · rw [if_neg (by simpa using granted), outcome.unchanged granted]

/-- The undo of a history, with an entry. -/
theorem foldl_undoHistory_level {tables : TableArea} {idx : Nat}
    (lawful : tables.Lawful cfg.table) (has : tables.HasAt cfg.table conn t idx)
    (newer : List (RowLockHistory Key)) :
    ∀ {env : TransEnv Key}, tables.Grows cfg.table conn env.stores.tables →
      (newer.foldl (undoHistory cfg conn) env).stores.tables.level cfg.table conn t =
        (newer.filter (Locks t)).foldl (undoLevel (Granted cfg conn tables t))
          (env.stores.tables.level cfg.table conn t) := by
  induction newer with
  | nil => exact fun _ => rfl
  | cons history rest ih =>
    intro env grows
    have grows' := grows.trans (undoHistory_grows conn grows.lawful history)
    rw [List.foldl_cons, ih grows']
    cases locks : Locks t history with
    | true =>
      rw [List.filter_cons_of_pos locks, List.foldl_cons, undoHistory_level lawful has grows locks]
    | false =>
      rw [List.filter_cons_of_neg (by simp [locks]), undoHistory_level_other grows.lawful locks]

/-- A forced request for no lock leaves none. -/
theorem undoHistory_level_zero (lawful : env.stores.tables.Lawful cfg.table)
    (unlocked : env.stores.tables.level cfg.table conn t = .notLocked)
    (zero : Locks t history = true → history.prev = 0) :
    (undoHistory cfg conn env history).stores.tables.level cfg.table conn t = .notLocked := by
  cases locks : Locks t history with
  | false => rw [undoHistory_level_other lawful locks, unlocked]
  | true =>
    obtain ⟨rfl, type⟩ := of_decide_eq_true locks
    have outcome :=
      lawful.lockTable_outcome conn history.iTable (.ofNumber history.prev) .force
    rw [undoHistory_tables, if_pos type]
    unfold rowlockSavepointRollbackTableLock
    rw [zero locks] at outcome ⊢
    by_cases granted : (sqlite3rowlockIpcLockTable cfg.table conn.1 env.stores.tables
        history.iTable.1 (.ofNumber 0) .force).1 = .ok
    · exact outcome.level_forced_zero lawful granted unlocked
    · rw [outcome.unchanged granted, unlocked]

/-- Nor do many of them. -/
theorem foldl_undoHistory_level_zero :
    ∀ {env : TransEnv Key}, env.stores.tables.Lawful cfg.table →
      env.stores.tables.level cfg.table conn t = .notLocked →
      (∀ history ∈ newer.filter (Locks t), history.prev = 0) →
      (newer.foldl (undoHistory cfg conn) env).stores.tables.level cfg.table conn t =
        .notLocked := by
  induction newer with
  | nil => exact fun _ unlocked _ => unlocked
  | cons history rest ih =>
    intro env lawful unlocked zero
    apply ih (undoHistory_grows conn lawful history).lawful
    · exact undoHistory_level_zero lawful unlocked fun locks =>
        zero history (List.mem_filter.2 ⟨List.mem_cons_self, locks⟩)
    · intro each member
      obtain ⟨inside, locks⟩ := List.mem_filter.1 member
      exact zero each (List.mem_filter.2 ⟨List.mem_cons_of_mem _ inside, locks⟩)

/-- A climb without a table lock stays, and its records carry zero. -/
theorem Climb.stays (climb : Climb t start records level)
    (created : ∀ history ∈ records, history.type ≠ .tableLock) :
    level = start ∧ ∀ history ∈ records, history.prev = 0 := by
  induction climb with
  | refl => exact ⟨rfl, (fun _ member => nomatch member)⟩
  | raised => exact absurd rfl (created _ List.mem_cons_self)
  | created _ _ ih =>
    obtain ⟨same, zero⟩ := ih fun history member => created history (List.mem_cons_of_mem _ member)
    refine ⟨same, fun history member => ?_⟩
    rcases List.mem_cons.1 member with rfl | inside
    · rfl
    · exact zero history inside

/-- The query already reported another owner of the same number, or the first record carries the
level the table had; where the forced request is blocked, the level has not changed. -/
def LevelRestorable (cfg : Config Key) (conn : Conn) (start now : TransState Key) (t : RootPage) :
    Prop :=
  start.env.stores.tables.ReportsForeign cfg.table conn t ∨
    ∀ first ∈ ((recordedSince start now).filter (Locks t)).getLast?,
      (now.env.stores.tables.Blocked cfg.table conn t (.ofNumber first.prev) →
        now.env.stores.tables.level cfg.table conn t =
          start.env.stores.tables.level cfg.table conn t) ∧
      (¬ now.env.stores.tables.Blocked cfg.table conn t (.ofNumber first.prev) →
        .ofNumber first.prev = start.env.stores.tables.level cfg.table conn t)

/-- The undo follows the records where there is an entry, and does nothing elsewhere. -/
theorem LockRun.undone_cases {now : TransState Key} (reached : LockRun cfg conn s now newer)
    (t : RootPage) :
    (∃ granted : TableLock → Bool,
      (∀ level, granted level = true ↔ ¬ now.env.stores.tables.Blocked cfg.table conn t level) ∧
      (t.1 ≠ schemaRoot → ∀ one other, granted one = granted other) ∧
      (newer.foldl (undoHistory cfg conn) now.env).stores.tables.level cfg.table conn t =
        (newer.filter (Locks t)).foldl (undoLevel granted)
          (now.env.stores.tables.level cfg.table conn t)) ∨
    ((newer.foldl (undoHistory cfg conn) now.env).stores.tables.level cfg.table conn t =
        .notLocked ∧
      now.env.stores.tables.level cfg.table conn t = .notLocked ∧
      s.env.stores.tables.level cfg.table conn t = .notLocked ∧
      ∀ history ∈ newer.filter (Locks t), history.prev = 0) := by
  have lawful := reached.lockable.lawful
  by_cases present : ∃ idx, now.env.stores.tables.HasAt cfg.table conn t idx
  · obtain ⟨idx, has⟩ := present
    have granted_iff : ∀ level, Granted cfg conn now.env.stores.tables t level = true ↔
        ¬ now.env.stores.tables.Blocked cfg.table conn t level := fun level =>
      decide_eq_true_iff.trans (lawful.forced_granted_iff has level)
    refine Or.inl ⟨Granted cfg conn now.env.stores.tables t, granted_iff, ?_,
      foldl_undoHistory_level lawful has newer (.refl lawful)⟩
    intro normal one other
    rw [Bool.eq_iff_iff, granted_iff, granted_iff, TableArea.blocked_uniform normal one other]
  · -- No record of the table is a table lock, and the level was never there.
    have created : ∀ history ∈ newer.filter (Locks t), history.type ≠ .tableLock := by
      intro history member type
      obtain ⟨inside, locks⟩ := List.mem_filter.1 member
      exact present (reached.entry t ⟨history, inside, type, (of_decide_eq_true locks).1⟩)
    obtain ⟨same, zero⟩ := (reached.climbs t).stays created
    push Not at present
    have unlocked := TableArea.level_absent present
    exact Or.inr ⟨foldl_undoHistory_level_zero lawful unlocked zero, unlocked,
      same.symm.trans unlocked, zero⟩

/-- The level of one table after the undo of a run. -/
theorem LockRun.level_restored_iff {now : TransState Key} (reached : LockRun cfg conn s now newer)
    (t : RootPage) :
    (newer.foldl (undoHistory cfg conn) now.env).stores.tables.level cfg.table conn t =
        s.env.stores.tables.level cfg.table conn t ↔
      ∀ first ∈ (newer.filter (Locks t)).getLast?,
        (now.env.stores.tables.Blocked cfg.table conn t (.ofNumber first.prev) →
          now.env.stores.tables.level cfg.table conn t =
            s.env.stores.tables.level cfg.table conn t) ∧
        (¬ now.env.stores.tables.Blocked cfg.table conn t (.ofNumber first.prev) →
          .ofNumber first.prev = s.env.stores.tables.level cfg.table conn t) := by
  rcases reached.undone_cases t with
    ⟨granted, granted_iff, uniform, undone⟩ | ⟨undone, unlocked, level, zero⟩
  · rw [undone, (reached.climbs t).restored_iff uniform]
    refine forall₂_congr fun first _ => ?_
    by_cases blocked : now.env.stores.tables.Blocked cfg.table conn t (.ofNumber first.prev)
    · have refused := (granted_iff (.ofNumber first.prev)).not.2 (not_not_intro blocked)
      simp only [refused, blocked, true_implies, not_true, false_implies, and_true]
      exact Iff.rfl
    · have given := (granted_iff (.ofNumber first.prev)).2 blocked
      simp only [given, blocked, if_true, false_implies, not_false_iff, true_implies, true_and]
  · rw [undone, level]
    refine iff_of_true rfl fun first member => ⟨fun _ => unlocked, fun _ => ?_⟩
    rw [zero first (List.mem_of_getLast? member)]
    rfl

/-- A table is no higher exactly when no request is blocked where the level has risen. -/
theorem LockRun.level_lowered_iff {now : TransState Key} (reached : LockRun cfg conn s now newer)
    (t : RootPage) :
    ((newer.foldl (undoHistory cfg conn) now.env).stores.tables.level cfg.table conn t).level ≤
        (s.env.stores.tables.level cfg.table conn t).level ↔
      ∀ first ∈ (newer.filter (Locks t)).getLast?,
        now.env.stores.tables.Blocked cfg.table conn t (.ofNumber first.prev) →
          (now.env.stores.tables.level cfg.table conn t).level ≤
            (s.env.stores.tables.level cfg.table conn t).level := by
  rcases reached.undone_cases t with
    ⟨granted, granted_iff, uniform, undone⟩ | ⟨undone, unlocked, level, zero⟩
  · rw [undone, (reached.climbs t).lowered_iff uniform]
    refine forall₂_congr fun first _ => ?_
    rw [← Bool.not_eq_true, granted_iff, not_not]
  · rw [undone, unlocked, level]
    exact iff_of_true (Nat.le_refl _) fun _ _ _ => Nat.le_refl _

/-- A rollback to a savepoint restores what the query reports exactly when every table is
restorable. -/
theorem rollback_restores_levels_iff (cfg : Config Key) (conn : Conn) (s : TransState Key)
    (earlier : List TableCall) (tables : s.env.stores.tables = TableArea.after cfg.table earlier)
    (started : s.inTransaction = true) (iSavepoint : Int) (calls : List (TransCall Key))
    (success : Guarded (transStep cfg conn) (Succeeds cfg conn) (savepointCreate s iSavepoint)
      calls) :
    let now := run (transStep cfg conn) (savepointCreate s iSavepoint) calls
    let after := sqlite3TransBtreeSavepoint cfg conn now .rollback iSavepoint
    (∀ t : RootPage,
      sqlite3rowlockIpcLockTableQuery cfg.table conn.1 after.env.stores.tables t.1 =
        sqlite3rowlockIpcLockTableQuery cfg.table conn.1 s.env.stores.tables t.1) ↔
      ∀ t, LevelRestorable cfg conn s now t := by
  have lawful : s.env.stores.tables.Lawful cfg.table := by
    rw [tables]
    exact TableArea.after_lawful cfg.table earlier
  have tidy : s.env.stores.tables.Tidy := by
    rw [tables]
    exact TableArea.after_tidy cfg.table earlier
  have lockable : Lockable cfg (savepointCreate s iSavepoint) := ⟨started, lawful, tidy⟩
  obtain ⟨newer, reached⟩ := transRun cfg conn lockable.open_ calls
  obtain ⟨newer', locked⟩ := lockRun lockable success
  obtain rfl : newer' = newer := List.append_cancel_right (locked.history.symm.trans reached.history)
  have undone := foldl_undoHistory_grows conn newer' locked.lockable.lawful
  have grows : s.env.stores.tables.Grows cfg.table conn _ := locked.grows.trans undone
  dsimp only
  rw [rollback_env cfg conn iSavepoint reached]
  refine forall_congr' fun t => ?_
  rw [LevelRestorable, recordedSince_eq iSavepoint reached.history]
  by_cases foreign : s.env.stores.tables.ReportsForeign cfg.table conn t
  · exact iff_of_true (grows.query_foreign foreign) (Or.inl foreign)
  · rw [lawful.query_own foreign, grows.lawful.query_own (grows.reports_own lawful foreign),
      or_iff_right foreign]
    exact locked.level_restored_iff t

/-- A table lock, with memory for its record. -/
def lockTwo (eLock : TableLock) : TransCall Nat := .lockTable tableTwo eLock true

/-- A table locked after the savepoint. -/
theorem rollback_restores_levels_write :
    beganTransaction.env.stores.tables = TableArea.after smallConfig.table [] ∧
    beganTransaction.inTransaction = true ∧
    Guarded (transStep smallConfig connA) (Succeeds smallConfig connA)
      (savepointCreate beganTransaction 1) [lockTwo .write, firstCursor] ∧
    let now := run (transStep smallConfig connA) (savepointCreate beganTransaction 1)
      [lockTwo .write, firstCursor]
    let after := sqlite3TransBtreeSavepoint smallConfig connA now .rollback 1
    ((∀ t : RootPage,
      sqlite3rowlockIpcLockTableQuery smallConfig.table connA.1 after.env.stores.tables t.1 =
        sqlite3rowlockIpcLockTableQuery smallConfig.table connA.1
          beganTransaction.env.stores.tables t.1) ↔
      ∀ t, LevelRestorable smallConfig connA beganTransaction now t) :=
  ⟨rfl, rfl, by decide, rollback_restores_levels_iff smallConfig connA beganTransaction [] rfl rfl 1
    [lockTwo .write, firstCursor] (by decide)⟩

/-- A table locked for writing before the savepoint is not locked after the rollback when its first
cursor was opened in between. -/
theorem rollback_drops_level :
    let locked := transStep smallConfig connA beganTransaction (lockTwo .write)
    let now := transStep smallConfig connA (savepointCreate locked 1) firstCursor
    let after := sqlite3TransBtreeSavepoint smallConfig connA now .rollback 1
    (firstCursor.perform smallConfig connA (savepointCreate locked 1)).1 = .ok ∧
    sqlite3rowlockIpcLockTableQuery smallConfig.table connA.1 locked.env.stores.tables
      tableTwo.1 = .write ∧
    sqlite3rowlockIpcLockTableQuery smallConfig.table connA.1 after.env.stores.tables
      tableTwo.1 = .notLocked := by
  decide

end SQLumDash.Savepoint
