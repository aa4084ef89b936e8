import SQLumDash.Savepoint.Tables

/-!
# Root pages after a rollback to a savepoint

The history names the creation of a table's trees and the deletion of all rows. An entry that the
deletion made is not recorded as new, and completing such an entry is: a rollback leaves the first
where it was not before, and removes the second where it was.
-/

namespace SQLumDash.Savepoint

open Ipc Psm Runs Function

variable {Key : Type} {cfg : Config Key} {conn : Conn} {s s' s'' : TransState Key}
  {iTable t : RootPage} {env : TransEnv Key} {history : RowLockHistory Key}
  {newer older : List (RowLockHistory Key)} {entry : Option TransRootPage}

/-- The undo of a record changes the entry of this table. -/
def Touches (t : RootPage) (history : RowLockHistory Key) : Bool :=
  decide (history.iTable = t ∧ (history.type = .newTable ∨ history.type = .tableClear))

/-- The undo of a record, on the entry of its table. -/
def undoEntry (entry : Option TransRootPage) (history : RowLockHistory Key) :
    Option TransRootPage :=
  match history.type with
  | .newTable => none
  | .tableClear => entry.map fun pRootPage =>
      { pRootPage with deleteAll := decide (history.prev ≠ 0) }
  | _ => entry

/-- An undo changes the entry of its table. -/
theorem undoHistory_rootPages : (undoHistory cfg conn env history).rootPages t =
    if Touches t history then undoEntry (env.rootPages t) history else env.rootPages t := by
  obtain ⟨type, table, n, p, prev⟩ := history
  by_cases here : table = t
  · subst here
    cases type with
    | index => cases p <;> simp [undoHistory, Touches]
    | tableClear =>
      cases found : env.rootPages table <;> simp [undoHistory, Touches, undoEntry, found]
    | newTable => simp [undoHistory, Touches, undoEntry]
    | _ => simp [undoHistory, Touches]
  · have other : t ≠ table := fun same => here same.symm
    have quiet : Touches t (⟨type, table, n, p, prev⟩ : RowLockHistory Key) = false :=
      decide_eq_false fun touches => here touches.1
    rw [quiet, if_neg (by decide)]
    cases type with
    | index => cases p <;> rfl
    | tableClear =>
      unfold undoHistory
      cases env.rootPages table <;> simp [other]
    | newTable => exact update_of_ne other _ _
    | _ => rfl

/-- Only records that touch a table matter. -/
theorem foldl_undoHistory_rootPages :
    ∀ {env : TransEnv Key}, (newer.foldl (undoHistory cfg conn) env).rootPages t =
      (newer.filter (Touches t)).foldl undoEntry (env.rootPages t) := by
  induction newer with
  | nil => exact rfl
  | cons history rest ih =>
    intro env
    rw [List.foldl_cons, ih, undoHistory_rootPages, List.filter_cons]
    cases Touches t history <;> rfl

/-- No entry stays none. -/
theorem foldl_undoEntry_none : newer.foldl undoEntry none = none := by
  induction newer with
  | nil => rfl
  | cons history rest ih =>
    have gone : undoEntry none history = none := by
      unfold undoEntry
      cases history.type <;> rfl
    rw [List.foldl_cons, gone]
    exact ih

/-- The undo of a creation leaves no entry. -/
theorem foldl_undoEntry_created (created : ∃ history ∈ newer, history.type = .newTable) :
    newer.foldl undoEntry entry = none := by
  obtain ⟨history, member, type⟩ := created
  obtain ⟨front, back, rfl⟩ := List.append_of_mem member
  have gone : undoEntry (front.foldl undoEntry entry) history = none := by
    rw [undoEntry, type]
  rw [List.foldl_append, List.foldl_cons, gone]
  exact foldl_undoEntry_none

/-- Without a creation the trees of an entry stay. -/
theorem foldl_undoEntry_trees (kept : ∀ history ∈ newer, history.type ≠ .newTable) :
    ∀ entry : Option TransRootPage,
      (newer.foldl undoEntry entry).map (fun e => (e.iIns, e.iDel)) =
        entry.map fun e => (e.iIns, e.iDel) := by
  induction newer with
  | nil => exact fun _ => rfl
  | cons history rest ih =>
    intro entry
    have here : (undoEntry entry history).map (fun e => (e.iIns, e.iDel)) =
        entry.map fun e => (e.iIns, e.iDel) := by
      have other := kept history List.mem_cons_self
      unfold undoEntry
      cases type : history.type with
      | newTable => exact absurd type other
      | tableClear => cases entry <;> rfl
      | _ => rfl
    rw [List.foldl_cons, ih fun each member => kept each (List.mem_cons_of_mem _ member), here]

/-- One call on the entry of a table, with its records. -/
inductive EntryStep (t : RootPage) :
    Option TransRootPage → List (RowLockHistory Key) → Option TransRootPage → Prop
  | kept (entry : Option TransRootPage) : EntryStep t entry [] entry
  /-- Trees are made; the record may fail. -/
  | completed (entry : Option TransRootPage) (bare : ∀ e, entry = some e → e.iIns = 0)
      (iInsTable iDelTable : Pgno) (deleteAll recorded : Bool) :
      EntryStep t entry (if recorded then [historyNewTable t] else [])
        (some ⟨iInsTable.1, iDelTable.1, deleteAll⟩)
  /-- A deletion of all rows that fails after it made an entry. -/
  | added : EntryStep t none [] (some ⟨0, 0, false⟩)
  /-- A deletion of all rows on an entry. -/
  | cleared (e : TransRootPage) :
      EntryStep t (some e) [historyTableClear t e.deleteAll] (some { e with deleteAll := true })
  /-- A deletion of all rows without an entry. -/
  | marked : EntryStep t none [historyTableClear t false] (some ⟨0, 0, true⟩)

/-- What one call does. -/
structure Effect (s s' : TransState Key) (new : List (RowLockHistory Key)) : Prop where
  open_ : s'.inTransaction = true
  stack : s'.lockSavepoint.pSavepoints = s.lockSavepoint.pSavepoints
  history : s'.lockSavepoint.pHistory = new ++ s.lockSavepoint.pHistory
  entries : ∀ t, EntryStep t (s.env.rootPages t) (new.filter (Touches t)) (s'.env.rootPages t)

/-- What a call does that leaves the root pages alone. -/
structure Quiet (s s' : TransState Key) (new : List (RowLockHistory Key)) : Prop where
  open_ : s'.inTransaction = true
  stack : s'.lockSavepoint.pSavepoints = s.lockSavepoint.pSavepoints
  history : s'.lockSavepoint.pHistory = new ++ s.lockSavepoint.pHistory
  untouched : ∀ t, new.filter (Touches t) = []
  rootPages : s'.env.rootPages = s.env.rootPages

variable {new : List (RowLockHistory Key)}

/-- A call that touches no entry. -/
theorem Quiet.effect (quiet : Quiet s s' new) : Effect s s' new where
  open_ := quiet.open_
  stack := quiet.stack
  history := quiet.history
  entries t := by
    rw [quiet.untouched t, quiet.rootPages]
    exact .kept _

/-- A call after one that leaves the root pages alone. -/
theorem Effect.after {first second : List (RowLockHistory Key)} (quiet : Quiet s s' first)
    (effect : Effect s' s'' second) : Effect s s'' (second ++ first) where
  open_ := effect.open_
  stack := effect.stack.trans quiet.stack
  history := by rw [effect.history, quiet.history, List.append_assoc]
  entries t := by
    rw [List.filter_append, quiet.untouched t, List.append_nil, ← quiet.rootPages]
    exact effect.entries t

/-- Nothing happened. -/
theorem Quiet.refl (started : s.inTransaction = true) : Quiet s s [] :=
  ⟨started, rfl, rfl, fun _ => rfl, rfl⟩

/-- A record of a type that no undo of entries looks at. -/
theorem untouched_of_type
    (types : ∀ history ∈ new, history.type ≠ .newTable ∧ history.type ≠ .tableClear) (t : RootPage) :
    new.filter (Touches t) = [] := by
  apply List.filter_eq_nil_iff.2
  intro history member touches
  obtain ⟨-, type⟩ := of_decide_eq_true touches
  rcases type with type | type
  · exact (types history member).1 type
  · exact (types history member).2 type

/-- A record that touches none. -/
theorem addHistory_quiet (memory : Bool) (quiet : Quiet s s' [])
    (type : history.type ≠ .newTable ∧ history.type ≠ .tableClear) :
    ∃ new, Quiet s (addHistory memory s' history).2 new := by
  cases memory with
  | true =>
    refine ⟨[history], quiet.open_, quiet.stack, congrArg (history :: ·) quiet.history,
      untouched_of_type fun each member => ?_, quiet.rootPages⟩
    rw [List.mem_singleton.1 member]
    exact type
  | false => exact ⟨[], quiet⟩

/-- Table locks do not touch the root pages. -/
theorem lockTable_quiet (cfg : Config Key) (conn : Conn) (memory : Bool)
    (started : s.inTransaction = true) (iTable : RootPage) (eLock : TableLock) :
    ∃ new, Quiet s
      (sqlite3rowlockIpcLockTableAndAddHistory cfg conn memory s iTable eLock).2 new := by
  have locked : ∀ tables, Quiet s { s with env.stores.tables := tables } [] :=
    fun _ => ⟨started, rfl, rfl, fun _ => rfl, rfl⟩
  unfold sqlite3rowlockIpcLockTableAndAddHistory
  dsimp only
  split_ifs
  · exact addHistory_quiet memory (locked _) ⟨by simp [historyTableLock], by simp [historyTableLock]⟩
  · exact ⟨[], locked _⟩
  · exact ⟨[], locked _⟩

/-- The index space touches none. -/
theorem createIndexSpace_quiet (calls : CreateCalls) (started : s.inTransaction = true)
    (iTable : RootPage) : ∃ new, Quiet s (createIndexSpace calls s iTable).2 new := by
  have created : ∀ indexes, Quiet s { s with env.stores.indexes := indexes } [] :=
    fun _ => ⟨started, rfl, rfl, fun _ => rfl, rfl⟩
  unfold createIndexSpace
  dsimp only
  split_ifs
  · exact addHistory_quiet calls.indexHistory (created _)
      ⟨by simp [historyNewIndex], by simp [historyNewIndex]⟩
  · exact ⟨[], created _⟩
  · exact ⟨[], .refl started⟩

/-- A record touches the entry of its own table. -/
theorem filter_touches_self (history : RowLockHistory Key) (same : history.iTable = t)
    (type : history.type = .newTable ∨ history.type = .tableClear) :
    [history].filter (Touches t) = [history] := by
  have touches : Touches t history = true := decide_eq_true ⟨same, type⟩
  rw [List.filter_cons_of_pos touches, List.filter_nil]

/-- Records of other tables do not count. -/
theorem filter_touches_other (other : history.iTable ≠ t) : [history].filter (Touches t) = [] := by
  have quiet : ¬ Touches t history = true := fun touches => other (of_decide_eq_true touches).1
  rw [List.filter_cons_of_neg quiet, List.filter_nil]

/-- One entry changes, with a record or without. -/
theorem effect_of_update {e : TransRootPage} (started : s'.inTransaction = true)
    (stack : s'.lockSavepoint.pSavepoints = s.lockSavepoint.pSavepoints)
    (history : s'.lockSavepoint.pHistory = new ++ s.lockSavepoint.pHistory)
    (rootPages : s'.env.rootPages = update s.env.rootPages iTable (some e))
    (others : ∀ t, t ≠ iTable → new.filter (Touches t) = [])
    (here : EntryStep iTable (s.env.rootPages iTable) (new.filter (Touches iTable)) (some e)) :
    Effect s s' new where
  open_ := started
  stack := stack
  history := history
  entries t := by
    rw [rootPages]
    by_cases same : t = iTable
    · subst same
      rw [update_self]
      exact here
    · rw [update_of_ne same, others t same]
      exact .kept _

/-- The entry that is added or completed. -/
theorem addTransRootPage_some {memory : Bool} {rootPages added : RootPages} {iIns iDel : Nat}
    (success : addTransRootPage memory rootPages iTable iIns iDel = some added) :
    added = update rootPages iTable
      (some ⟨iIns, iDel, ((rootPages iTable).map TransRootPage.deleteAll).getD false⟩) := by
  unfold addTransRootPage at success
  cases found : rootPages iTable with
  | some e =>
    rw [found] at success
    exact (Option.some.inj success).symm
  | none =>
    rw [found] at success
    split_ifs at success
    exact (Option.some.inj success).symm

section

variable (calls : CreateCalls) (started : s.inTransaction = true)
  (bare : ∀ e, s.env.rootPages iTable = some e → e.iIns = 0)

include calls started bare

/-- The association with the trees. -/
theorem associate_effect (iInsTable iDelTable : Pgno) :
    ∃ new, Effect s (associate calls s iTable iInsTable iDelTable).2 new := by
  unfold associate
  cases success : addTransRootPage calls.memory s.env.rootPages iTable iInsTable.1 iDelTable.1 with
  | none => exact ⟨[], (Quiet.refl started).effect⟩
  | some added =>
    have written := addTransRootPage_some success
    cases recorded : calls.history with
    | true =>
      refine ⟨[historyNewTable iTable], effect_of_update started rfl rfl written (fun t other => ?_)
        ?_⟩
      · exact filter_touches_other other.symm
      · have only : [historyNewTable iTable].filter (Touches iTable) =
            ([historyNewTable iTable] : List (RowLockHistory Key)) :=
          filter_touches_self _ rfl (Or.inl rfl)
        rw [only]
        exact .completed _ bare iInsTable iDelTable _ true
    | false =>
      exact ⟨[], effect_of_update started rfl rfl written (fun _ _ => rfl)
        (.completed _ bare iInsTable iDelTable _ false)⟩

/-- The creation of the trees. -/
theorem createTable_effect :
    ∃ new, Effect s (sqlite3TransBtreeCreateTable calls s iTable).2 new := by
  have idle : ∃ new, Effect s s new := ⟨[], (Quiet.refl started).effect⟩
  unfold sqlite3TransBtreeCreateTable
  simp only [started, if_true]
  cases calls.iInsTable with
  | none => exact idle
  | some iInsTable =>
    cases calls.iDelTable with
    | none => exact idle
    | some iDelTable =>
      obtain ⟨first, quiet⟩ := createIndexSpace_quiet calls started iTable
      split_ifs
      · have bare' : ∀ e, (createIndexSpace calls s iTable).2.env.rootPages iTable = some e →
            e.iIns = 0 := by
          rw [quiet.rootPages]
          exact bare
        obtain ⟨second, effect⟩ :=
          associate_effect calls quiet.open_ bare' iInsTable iDelTable
        exact ⟨second ++ first, effect.after quiet⟩
      · exact ⟨first, quiet.effect⟩

end

/-- The entry that a deletion of all rows works on. -/
theorem clearedRootPage_ok {calls : ClearCalls} {pRootPage : TransRootPage} {rootPages : RootPages}
    (found : clearedRootPage calls s iTable = .ok (pRootPage, rootPages)) :
    rootPages = update s.env.rootPages iTable (some pRootPage) ∧
      EntryStep iTable (s.env.rootPages iTable) ([] : List (RowLockHistory Key)) (some pRootPage) ∧
      EntryStep iTable (s.env.rootPages iTable)
        ([historyTableClear iTable pRootPage.deleteAll] : List (RowLockHistory Key))
        (some { pRootPage with deleteAll := true }) := by
  unfold clearedRootPage at found
  cases present : s.env.rootPages iTable with
  | some e =>
    rw [present] at found
    dsimp only at found
    split_ifs at found
    obtain ⟨rfl, rfl⟩ := Prod.mk.inj (Except.ok.inj found)
    refine ⟨?_, .kept _, .cleared e⟩
    rw [← present, update_eq_self]
  | none =>
    rw [present] at found
    cases success : addTransRootPage calls.memory s.env.rootPages iTable 0 0 with
    | none =>
      rw [success] at found
      cases found
    | some added =>
      rw [success] at found
      obtain ⟨rfl, rfl⟩ := Prod.mk.inj (Except.ok.inj found)
      have written := addTransRootPage_some success
      rw [present] at written
      exact ⟨written, .added, .marked⟩

section

variable (started : s.inTransaction = true)

include started

/-- A cursor. -/
theorem transBtreeCursor_effect (calls : CreateCalls) (iTable : RootPage) (wrFlag : Bool) :
    ∃ new, Effect s (transBtreeCursor calls s iTable wrFlag).2 new := by
  have idle : ∃ new, Effect s s new := ⟨[], (Quiet.refl started).effect⟩
  unfold transBtreeCursor
  by_cases schema : iTable.1 = schemaRoot
  · rw [if_pos schema]
    exact idle
  · rw [if_neg schema]
    cases found : s.env.rootPages iTable with
    | none =>
      simp only [started, Bool.not_true, Bool.false_and, Bool.false_eq_true, if_false]
      exact createTable_effect calls started fun e same => by rw [found] at same; cases same
    | some e =>
      by_cases complete : e.iIns ≠ 0
      · dsimp only
        rw [if_pos (decide_eq_true complete)]
        exact idle
      · have none_ : e.iIns = 0 := not_not.1 complete
        simp only [none_, ne_eq, not_true_eq_false, decide_false, Bool.false_eq_true, if_false,
          started, Bool.not_true, Bool.false_and]
        refine createTable_effect calls started fun each same => ?_
        rw [found] at same
        rw [← Option.some.inj same]
        exact none_

/-- The end of a deletion of all rows. -/
theorem setDeleteAll_effect (calls : ClearCalls) {pRootPage : TransRootPage} {rootPages : RootPages}
    (found : clearedRootPage calls s iTable = .ok (pRootPage, rootPages)) :
    ∃ new, Effect s (setDeleteAll calls { s with env.rootPages := rootPages } iTable
      pRootPage).2 new := by
  obtain ⟨written, kept, cleared⟩ := clearedRootPage_ok found
  unfold setDeleteAll
  cases counted : calls.counts with
  | false => exact ⟨[], effect_of_update started rfl rfl written (fun _ _ => rfl) kept⟩
  | true =>
    cases recorded : calls.history with
    | false => exact ⟨[], effect_of_update started rfl rfl written (fun _ _ => rfl) kept⟩
    | true =>
      have rewritten : update rootPages iTable
          (some { pRootPage with deleteAll := true }) =
            update s.env.rootPages iTable (some { pRootPage with deleteAll := true }) := by
        rw [written, update_idem]
      refine ⟨[historyTableClear iTable pRootPage.deleteAll],
        effect_of_update started rfl rfl rewritten (fun t other => ?_) ?_⟩
      · exact filter_touches_other other.symm
      · have only : [historyTableClear iTable pRootPage.deleteAll].filter (Touches iTable) =
            ([historyTableClear iTable pRootPage.deleteAll] : List (RowLockHistory Key)) :=
          filter_touches_self _ rfl (Or.inr rfl)
        rw [only]
        exact cleared

/-- A deletion of all rows. -/
theorem clearTable_effect (cfg : Config Key) (conn : Conn) (calls : ClearCalls) (iTable : RootPage) :
    ∃ new, Effect s (sqlite3TransBtreeClearTable cfg conn calls s iTable).2 new := by
  obtain ⟨first, quiet⟩ := lockTable_quiet cfg conn calls.lockHistory started iTable .writeEx
  unfold sqlite3TransBtreeClearTable
  dsimp only
  generalize sqlite3rowlockIpcLockTableAndAddHistory cfg conn calls.lockHistory s iTable .writeEx =
    locked at quiet
  split_ifs
  · cases found : clearedRootPage calls locked.2 iTable with
    | error rc => exact ⟨first, quiet.effect⟩
    | ok cleared =>
      obtain ⟨second, effect⟩ := setDeleteAll_effect quiet.open_ calls found
      exact ⟨second ++ first, effect.after quiet⟩
  · exact ⟨first, quiet.effect⟩
  · exact ⟨first, quiet.effect⟩

/-- What any call does. -/
theorem transStep_effect (cfg : Config Key) (conn : Conn) (call : TransCall Key) :
    ∃ new, Effect s (transStep cfg conn s call) new := by
  cases call with
  | lockTable iTable eLock memory =>
    obtain ⟨new, quiet⟩ := lockTable_quiet cfg conn memory started iTable eLock
    exact ⟨new, quiet.effect⟩
  | cursor iTable wrFlag calls => exact transBtreeCursor_effect started calls iTable wrFlag
  | clearTable iTable calls => exact clearTable_effect started cfg conn calls iTable
  | row records rows indexes =>
    refine ⟨records.map RowRecord.history, Quiet.effect ⟨started, rfl, rfl, ?_, rfl⟩⟩
    apply untouched_of_type
    intro history member
    obtain ⟨record, -, rfl⟩ := List.mem_map.1 member
    cases record <;> exact ⟨nofun, nofun⟩

end

/-- The entry at a savepoint, the records since and the entry now. -/
structure Since (start : Option TransRootPage) (records : List (RowLockHistory Key))
    (now : Option TransRootPage) : Prop where
  /-- As long as the trees are the same, the undo gives the entry back. -/
  undone : ∀ e, start = some e → ∃ e', now = some e' ∧
    (e'.iIns = e.iIns → records.foldl undoEntry now = some e)
  trees : ∀ e e', start = some e → now = some e' → e.iIns ≠ 0 → e'.iIns = e.iIns

/-- Nothing happened. -/
theorem Since.refl (start : Option TransRootPage) :
    Since start ([] : List (RowLockHistory Key)) start where
  undone e same := ⟨e, same, fun _ => same⟩
  trees e e' same same' _ := by
    rw [same] at same'
    rw [Option.some.inj same']

/-- The undo of a deletion of all rows restores the flag. -/
theorem undoEntry_cleared (e : TransRootPage) (t : RootPage) :
    undoEntry (some { e with deleteAll := true })
      (historyTableClear t e.deleteAll : RowLockHistory Key) = some e := by
  obtain ⟨iIns, iDel, deleteAll⟩ := e
  cases deleteAll <;> rfl

/-- One call more. -/
theorem Since.step {start now now' : Option TransRootPage}
    {records new : List (RowLockHistory Key)} (since : Since start records now)
    (step : EntryStep t now new now') : Since start (new ++ records) now' := by
  cases step with
  | kept => exact since
  | completed _ bare iInsTable iDelTable deleteAll recorded =>
    have positive : iInsTable.1 ≠ 0 := Nat.ne_of_gt iInsTable.2
    refine ⟨fun e same => ⟨_, rfl, fun trees => ?_⟩, fun e e' same same' had => ?_⟩
    · -- Trees are made only for a table that had none.
      obtain ⟨e', present, -⟩ := since.undone e same
      have had : e.iIns ≠ 0 := trees ▸ positive
      have kept := since.trees e e' same present had
      rw [bare e' present] at kept
      exact absurd kept.symm had
    · obtain ⟨e', present, -⟩ := since.undone e same
      have kept := since.trees e e' same present had
      rw [bare e' present] at kept
      exact absurd kept.symm had
  | added | marked =>
    refine ⟨fun e same => ?_, fun e e' same => ?_⟩ <;>
    · obtain ⟨_, present, -⟩ := since.undone e same
      cases present
  | cleared current =>
    refine ⟨fun e same => ⟨_, rfl, fun trees => ?_⟩, fun e e' same same' had => ?_⟩
    · obtain ⟨e', present, undone⟩ := since.undone e same
      cases present
      rw [List.foldl_append, List.foldl_cons, List.foldl_nil, undoEntry_cleared]
      exact undone trees
    · cases same'
      exact since.trees e current same rfl had

/-- What a run of calls leaves of a savepoint. -/
structure SavepointRun (start now : TransState Key) (newer : List (RowLockHistory Key)) :
    Prop where
  open_ : now.inTransaction = true
  stack : now.lockSavepoint.pSavepoints = start.lockSavepoint.pSavepoints
  history : now.lockSavepoint.pHistory = newer ++ start.lockSavepoint.pHistory
  since : ∀ t, Since (start.env.rootPages t) (newer.filter (Touches t)) (now.env.rootPages t)

/-- Nothing happened. -/
theorem SavepointRun.refl (started : s.inTransaction = true) : SavepointRun s s [] :=
  ⟨started, rfl, rfl, fun _ => .refl _⟩

/-- One call more. -/
theorem SavepointRun.step {now now' : TransState Key} (reached : SavepointRun s now newer)
    (effect : Effect now now' new) : SavepointRun s now' (new ++ newer) where
  open_ := effect.open_
  stack := effect.stack.trans reached.stack
  history := by rw [effect.history, reached.history, List.append_assoc]
  since t := by
    rw [List.filter_append]
    exact (reached.since t).step (effect.entries t)

/-- Any calls. -/
theorem transRun (cfg : Config Key) (conn : Conn) (started : s.inTransaction = true)
    (calls : List (TransCall Key)) :
    ∃ newer, SavepointRun s (run (transStep cfg conn) s calls) newer := by
  apply run_invariant (P := fun now => ∃ newer, SavepointRun s now newer)
  · rintro now call ⟨newer, reached⟩
    obtain ⟨new, effect⟩ := transStep_effect reached.open_ cfg conn call
    exact ⟨new ++ newer, reached.step effect⟩
  · exact ⟨[], .refl started⟩

/-- A new savepoint is found at the end of the history. -/
theorem target_created (log : RowLockSavepoint (RowLockHistory Key)) (iSavepoint : Int) :
    (rowlockSavepointCreate log iSavepoint).pHistory = log.pHistory ∧
      ∃ below, target (rowlockSavepointCreate log iSavepoint).pSavepoints iSavepoint =
        some (log.pHistory.length, below) := by
  unfold rowlockSavepointCreate
  split_ifs with same
  · refine ⟨rfl, ?_⟩
    cases stack : log.pSavepoints with
    | nil =>
      rw [stack] at same
      cases same
    | cons entry below =>
      rw [stack] at same
      rw [Option.some.inj same]
      exact ⟨below, target_here⟩
  · exact ⟨rfl, log.pSavepoints, target_here⟩

/-- A rollback undoes the records of the run. -/
theorem rollback_env (cfg : Config Key) (conn : Conn) (iSavepoint : Int) {now : TransState Key}
    (reached : SavepointRun (savepointCreate s iSavepoint) now newer) :
    (sqlite3TransBtreeSavepoint cfg conn now .rollback iSavepoint).env =
      newer.foldl (undoHistory cfg conn) now.env := by
  obtain ⟨same, below, found⟩ := target_created s.lockSavepoint iSavepoint
  have history := reached.history
  have stack := reached.stack
  obtain ⟨env, ⟨pHistory, pSavepoints⟩, inTransaction⟩ := now
  change pHistory = newer ++ (rowlockSavepointCreate s.lockSavepoint iSavepoint).pHistory at history
  change pSavepoints = (rowlockSavepointCreate s.lockSavepoint iSavepoint).pSavepoints at stack
  rw [same] at history
  rw [← stack] at found
  subst history
  change (rowlockSavepoint (undoHistory cfg conn) ⟨newer ++ _, pSavepoints⟩ .rollback iSavepoint
    env).2 = _
  rw [rowlockSavepoint_rollback found]

/-- The records made since an earlier state. -/
def recordedSince (start now : TransState Key) : List (RowLockHistory Key) :=
  now.lockSavepoint.pHistory.take (now.lockSavepoint.nHistory - start.lockSavepoint.nHistory)

/-- The records made since the savepoint. -/
theorem recordedSince_eq {now : TransState Key} (iSavepoint : Int)
    (history : now.lockSavepoint.pHistory =
      newer ++ (savepointCreate s iSavepoint).lockSavepoint.pHistory) :
    recordedSince s now = newer := by
  have records := history.trans
    (congrArg (newer ++ ·) (target_created s.lockSavepoint iSavepoint).1)
  unfold recordedSince RowLockSavepoint.nHistory
  rw [records]
  simp

/-- A table that had no entry has none yet, or the creation of its trees is recorded; one that had
an entry without trees has no trees yet. -/
def RestorableEntry (start now : Option TransRootPage) (created : Prop) : Prop :=
  match start with
  | none => now = none ∨ created
  | some e => e.iIns = 0 → ∃ e', now = some e' ∧ e'.iIns = 0

/-- The condition on one table, before the rollback. -/
def Restorable (start now : TransState Key) (t : RootPage) : Prop :=
  RestorableEntry (start.env.rootPages t) (now.env.rootPages t)
    (∃ history ∈ recordedSince start now, history.type = .newTable ∧ history.iTable = t)

/-- A creation of the table is among its records. -/
theorem mem_filter_newTable : (∃ history ∈ newer.filter (Touches t), history.type = .newTable) ↔
    ∃ history ∈ newer, history.type = .newTable ∧ history.iTable = t := by
  constructor
  · rintro ⟨history, member, type⟩
    obtain ⟨inside, touches⟩ := List.mem_filter.1 member
    exact ⟨history, inside, type, (of_decide_eq_true touches).1⟩
  · rintro ⟨history, inside, type, table⟩
    exact ⟨history, List.mem_filter.2 ⟨inside, decide_eq_true ⟨table, Or.inl type⟩⟩, type⟩

/-- The undo gives the entry back exactly under the condition. -/
theorem Since.restored_iff {start now : Option TransRootPage}
    {records : List (RowLockHistory Key)} (since : Since start records now) :
    records.foldl undoEntry now = start ↔
      RestorableEntry start now (∃ history ∈ records, history.type = .newTable) := by
  unfold RestorableEntry
  by_cases created : ∃ history ∈ records, history.type = .newTable
  · rw [foldl_undoEntry_created created]
    cases start with
    | none => simp only [created, or_true]
    | some e =>
      refine ⟨(fun same => nomatch same), fun bare => ?_⟩
      obtain ⟨e', present, undone⟩ := since.undone e rfl
      have same : e'.iIns = e.iIns := by
        by_cases none_ : e.iIns = 0
        · obtain ⟨e'', present', bare'⟩ := bare none_
          rw [present] at present'
          rw [Option.some.inj present', bare', none_]
        · exact since.trees e e' rfl present none_
      rw [← foldl_undoEntry_created created]
      exact undone same
  · have trees := foldl_undoEntry_trees
      (fun history member type => created ⟨history, member, type⟩) now
    cases start with
    | none =>
      rw [← Option.map_eq_none_iff, trees, Option.map_eq_none_iff]
      simp only [created, or_false]
    | some e =>
      obtain ⟨e', present, undone⟩ := since.undone e rfl
      constructor
      · intro restored bare
        rw [restored, present] at trees
        exact ⟨e', present, by rw [← (Prod.mk.inj (Option.some.inj trees)).1, bare]⟩
      · intro bare
        apply undone
        by_cases none_ : e.iIns = 0
        · obtain ⟨e'', present', bare'⟩ := bare none_
          rw [present] at present'
          rw [Option.some.inj present', bare', none_]
        · exact since.trees e e' rfl present none_

/-- For every transaction and every sequence of calls after a savepoint, a rollback to the savepoint
restores the whole map exactly when every table meets the condition. -/
theorem rollback_restores_rootPages_iff (cfg : Config Key) (conn : Conn) (s : TransState Key)
    (started : s.inTransaction = true) (iSavepoint : Int) (calls : List (TransCall Key)) :
    let now := run (transStep cfg conn) (savepointCreate s iSavepoint) calls
    (sqlite3TransBtreeSavepoint cfg conn now .rollback iSavepoint).env.rootPages =
        s.env.rootPages ↔
      ∀ t, Restorable s now t := by
  have created : (savepointCreate s iSavepoint).inTransaction = true := started
  obtain ⟨newer, reached⟩ := transRun cfg conn created calls
  dsimp only
  rw [rollback_env cfg conn iSavepoint reached, funext_iff]
  refine forall_congr' fun t => ?_
  rw [foldl_undoHistory_rootPages, Restorable, recordedSince_eq iSavepoint reached.history]
  have restored := (reached.since t).restored_iff
  rw [mem_filter_newTable] at restored
  exact restored

/-- A write transaction that has done nothing yet. -/
def beganTransaction : TransState Nat := ⟨⟨fun _ => none, .init⟩, .closed, true⟩

/-- The tree that is created first. -/
def pageThree : Pgno := ⟨3, by decide⟩

/-- The tree that is created next. -/
def pageFour : Pgno := ⟨4, by decide⟩

/-- The first cursor on a table. -/
def firstCursor : TransCall Nat :=
  .cursor tableTwo true
    ⟨true, true, 0, some pageThree, some pageFour, false, .all, true, true, true⟩

/-- The deletion of all rows of a table. -/
def deleteAllRows : TransCall Nat :=
  .clearTable tableTwo ⟨true, false, some [], true, true, true, true⟩

/-- A table written after the savepoint. -/
theorem rollback_restores_rootPages_write :
    beganTransaction.inTransaction = true ∧
    let now := run (transStep smallConfig connA) (savepointCreate beganTransaction 1)
      [firstCursor, deleteAllRows]
    ((sqlite3TransBtreeSavepoint smallConfig connA now .rollback 1).env.rootPages =
        beganTransaction.env.rootPages ↔
      ∀ t, Restorable beganTransaction now t) :=
  ⟨rfl, rollback_restores_rootPages_iff smallConfig connA beganTransaction rfl 1
    [firstCursor, deleteAllRows]⟩

/-- The deletion of all rows before the savepoint is forgotten when the table is written after it;
after the savepoint it leaves an entry that was not there. -/
theorem rollback_changes_rootPages :
    let cleared := transStep smallConfig connA beganTransaction deleteAllRows
    let written := transStep smallConfig connA (savepointCreate cleared 1) firstCursor
    let marked := transStep smallConfig connA (savepointCreate beganTransaction 1) deleteAllRows
    (cleared.env.rootPages tableTwo = some ⟨0, 0, true⟩ ∧
      (sqlite3TransBtreeSavepoint smallConfig connA written .rollback 1).env.rootPages tableTwo =
        none) ∧
    beganTransaction.env.rootPages tableTwo = none ∧
      (sqlite3TransBtreeSavepoint smallConfig connA marked .rollback 1).env.rootPages tableTwo =
        some ⟨0, 0, false⟩ := by
  decide

end SQLumDash.Savepoint
