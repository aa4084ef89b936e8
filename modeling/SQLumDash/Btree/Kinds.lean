import SQLumDash.Btree.RowOps

/-!
# Calls that respect the kind of a tree

A search has an unpacked key exactly on a cursor with key info, an integer key is read only from one
without, and a row lock names a table with rowids. One branch does not keep to this: the deletion of
a record that the transaction inserted into an index that is not unique.
-/

namespace SQLumDash.Btree

open Traced Runs

variable {Key : Type} {schema : Schema} {env : Environment (Call Key) (Answer Key)}
  {cursor : TransCursor} {pX : BtreePayload Key} {table : CommitTable} {P : Call Key → Prop}

/-- A call respects the kind of its tree. -/
def Respects (schema : Schema) : Call Key → Prop
  | .movetoUnpacked cursor pIdxKey _ => pIdxKey = none ↔ cursor.pKeyInfo = false
  | .integerKey cursor => cursor.pKeyInfo = false
  | .ipcLockRecord iTable _ | .ipcUnlockRecord iTable _ => schema.isIndex iTable = false
  | _ => True

instance (schema : Schema) : (call : Call Key) → Decidable (Respects schema call)
  | .movetoUnpacked .. => inferInstanceAs (Decidable (_ ↔ _))
  | .integerKey _ | .ipcLockRecord .. | .ipcUnlockRecord .. => inferInstanceAs (Decidable (_ = _))
  | .saveAllCursors _ | .allocUnpackedRecord _ | .recordUnpack .. | .payloadSize _ | .realloc _
  | .payload _ | .insert .. | .delete _ | .first _ | .next _ | .clearTableOfCursor _ | .lockTable _
  | .openCursor _ | .invalidateIncrblobCursors .. | .psmLockRecord .. | .psmUnlockRecord ..
  | .historyAddRecord .. | .historyAddIndex .. => .isTrue trivial

/-- An index that is not unique, or not in the schema yet. -/
def Schema.Unlocked (schema : Schema) (iTable : RootPage) : Prop :=
  schema.isIndex iTable = true ∧ schema.rowlockJudgeTableType iTable ≠ .indexUnique

/-- An operation is not the deletion of a record that the transaction inserted into an index that is
not unique. -/
def KeepsKind (schema : Schema) (env : Environment (Call Key) (Answer Key))
    (s : Session Key) : RowOp Key → Prop
  | .delete id =>
    ¬ ((s.cursors id).pCurIns = true ∧ (s.cursors id).transIsUsed = true ∧
      schema.Unlocked (s.cursors id).pgnoRoot ∧
      ((s.cursors id).multiple = true →
        (env s.calls (.saveAllCursors (s.cursors id).pgnoRoot)).rc = .ok))
  | _ => True

section Pieces

/-- One call. -/
theorem makes_attempt {call : Call Key} (holds : P call) : Makes P (attempt env call) :=
  .bind (.ask env holds) fun answer => .ite (fun _ => .pure answer) fun _ => .fail answer.rc

/-- One call. -/
theorem makes_perform {call : Call Key} (holds : P call) : Makes P (perform env call) :=
  .bind (makes_attempt holds) fun _ => .pure ()

variable {on : BtCursor} {pKey : Option Key}

/-- There is an unpacked key under the condition. -/
theorem gives_unpackIf {condition keyFields : Bool} :
    Gives (fun pIdxKey => pIdxKey = none ↔ condition = false)
      (unpackIf env condition on pKey keyFields) := by
  refine .ite (fun holds => .bind fun pIdxKey => .pure ?_) fun fails => .pure ?_
  · simp [holds]
  · simpa using fails

/-- The calls that unpack a key. -/
theorem makes_unpackIf {condition keyFields : Bool} :
    Makes (Respects schema) (unpackIf env condition on pKey keyFields) := by
  refine .ite (fun _ => .bind ?_ fun pIdxKey => .pure _) fun _ => .pure none
  refine .bind (makes_perform trivial) fun _ => ?_
  exact .bind (makes_perform trivial) fun _ => .pure _

/-- `btreeCursorMovetoKey` looks at the key info. -/
theorem makes_btreeCursorMovetoKey {nKey : Int} :
    Makes (Respects schema) (btreeCursorMovetoKey env on pKey nKey) :=
  .bind_gives makes_unpackIf gives_unpackIf fun _ agrees =>
    .bind (makes_attempt agrees) fun answer => .pure answer.value

/-- `btreeMoveto` looks at the key, which has to agree. -/
theorem makes_btreeMoveto {nKey : Int} (agrees : pKey.isSome = on.pKeyInfo) :
    Makes (Respects schema) (btreeMoveto env on pKey nKey) := by
  refine .bind_gives makes_unpackIf gives_unpackIf fun pIdxKey unpacked => ?_
  rw [agrees] at unpacked
  exact .bind (makes_attempt unpacked) fun answer => .pure answer.value

/-- Reading the payload. -/
theorem makes_btreePayloadWithMalloc : Makes (Respects schema) (btreePayloadWithMalloc env on) := by
  refine .bind (.ask env trivial) fun size => ?_
  refine .bind (makes_perform trivial) fun _ => ?_
  exact .bind (makes_attempt trivial) fun answer => .pure _

/-- Requesting a lock. -/
theorem makes_requestLock {request record : Call Key} {refusal : Rc → Rc}
    (requests : P request) (records : P record) :
    Makes P (requestLock env request record refusal) := by
  refine .bind (.ask env requests) fun answer => ?_
  cases answer.rc with
  | ok => exact makes_perform records
  | done => exact .pure ()
  | locked | nomem | corruptRowid | constraint | error => exact .fail _

/-- Going on with a loop. -/
theorem makes_afterNext {rc : Rc} {loop : Routine Key Unit} (loops : Makes P loop) :
    Makes P (afterNext rc loop) := by
  cases rc with
  | ok => exact loops
  | done => exact .pure ()
  | locked | nomem | corruptRowid | constraint | error => exact .fail _

end Pieces

section Insert

/-- Searching a tree. -/
theorem makes_searchIf {used : Bool} {on : BtCursor} :
    Makes (Respects schema) (searchIf env used on pX) :=
  .ite (fun _ => .bind makes_btreeCursorMovetoKey fun res => .pure (some res)) fun _ => .pure none

/-- Searching the copies of a row. -/
theorem makes_searchCopies {append : Bool} {seekResult : Int} :
    Makes (Respects schema) (searchCopies schema env cursor pX append seekResult) := by
  refine .ite (fun _ => ?_) fun _ => .pure _
  exact .bind makes_searchIf fun shared => .bind makes_searchIf fun trans => .pure _

/-- A row lock is only taken without key info. -/
theorem makes_lockForInsert : Makes (Respects schema) (lockForInsert schema env cursor pX) := by
  refine .ite (fun _ => .when fun _ => ?_) fun table => .when fun _ => ?_
  · exact makes_requestLock trivial trivial
  · have rowids : schema.isIndex cursor.pgnoRoot = false := Bool.eq_false_of_not_eq_true table
    exact makes_requestLock rowids trivial

/-- Writing a row to a tree. -/
theorem makes_writeCopy {on : BtCursor} {append : Bool} (agrees : pX.pKey.isSome = on.pKeyInfo) :
    Makes (Respects schema) (writeCopy env on pX append) :=
  .bind (makes_perform trivial) fun _ => .bind (makes_btreeMoveto agrees) fun _ => .pure ()

/-- An insertion respects the kind. -/
theorem makes_insert {append : Bool} {seekResult : Int}
    (agrees : pX.pKey.isSome = schema.isIndex cursor.pgnoRoot) :
    Makes (Respects schema) (sqlite3TransBtreeInsert schema env cursor pX append seekResult) := by
  refine .ite (fun _ => ?_) fun _ => .bind (makes_perform trivial) fun _ => .pure cursor
  refine .bind (.when fun _ => makes_perform trivial) fun _ => ?_
  refine .bind makes_searchCopies fun found => ?_
  refine .bind makes_lockForInsert fun _ => ?_
  refine .bind (.when fun _ => makes_writeCopy agrees) fun _ => ?_
  refine .bind (makes_writeCopy agrees) fun _ => ?_
  refine .bind (.when fun _ => .bind (makes_btreeMoveto agrees) fun _ => .pure ()) fun _ => ?_
  exact .bind (.ask env trivial) fun _ => .pure _

end Insert

section Delete

/-- Giving up a lock, unless the index is not unique. -/
theorem makes_releaseInserted (kind : ¬ schema.Unlocked cursor.pgnoRoot) :
    Makes (Respects schema) (releaseInserted schema env cursor) := by
  refine .ite (fun _ => ?_) fun table => ?_
  · exact .bind makes_btreePayloadWithMalloc fun key => .bind (.ask env trivial) fun _ => .pure ()
  · have rowids : schema.isIndex cursor.pgnoRoot = false := by
      by_contra index
      have index : schema.isIndex cursor.pgnoRoot = true := by simpa using index
      refine kind ⟨index, fun unique => table ?_⟩
      simp [TransCursor.on, TransCursor.rowlockIsUniqueIndex, index, unique]
    refine .bind (.ask env rowids) fun nKey => ?_
    refine .bind (makes_attempt ⟨fun _ => rowids, fun _ => rfl⟩) fun resDel => ?_
    exact .when fun _ => .bind (.ask env rowids) fun _ => .pure ()

/-- Deleting a record of the shared tree. -/
theorem makes_deleteSharedIndex :
    Makes (Respects schema) (deleteSharedIndex schema env cursor) := by
  refine .bind makes_btreePayloadWithMalloc fun key => ?_
  refine .bind (.when fun _ => makes_requestLock trivial trivial) fun _ => ?_
  exact makes_perform trivial

/-- Deleting a row of the shared tree. -/
theorem makes_deleteSharedRow (rowids : schema.isIndex cursor.pgnoRoot = false) :
    Makes (Respects schema) (deleteSharedRow schema env cursor) := by
  refine .bind (.ask env rowids) fun nKey => ?_
  refine .bind (makes_requestLock rowids trivial) fun _ => ?_
  exact .bind (makes_perform trivial) fun _ => .bind (.ask env trivial) fun _ => .pure ()

/-- The rest of a deletion. -/
theorem makes_deleteSaved (kind : cursor.transIsUsed = true → ¬ schema.Unlocked cursor.pgnoRoot) :
    Makes (Respects schema) (deleteSaved schema env cursor) := by
  refine .ite (fun inserted => ?_) fun _ => .ite (fun _ => makes_deleteSharedIndex) fun table => ?_
  · exact .bind (makes_releaseInserted (kind inserted)) fun _ => makes_perform trivial
  · exact makes_deleteSharedRow (Bool.eq_false_of_not_eq_true table)

variable {history : List (Call Key)}

/-- A call succeeds as it is answered. -/
theorem perform_ok_iff {call : Call Key} :
    (perform env call history).1 = .ok () ↔ (env history call).rc = .ok := by
  have attempted : attempt env call history =
      (if (env history call).rc = .ok then .ok (env history call)
        else .error (env history call).rc, [call]) := by
    unfold attempt
    rw [bind_eq]
    dsimp only [ask]
    split_ifs <;> rfl
  unfold perform
  rw [bind_eq, attempted]
  split_ifs with ok
  · exact ⟨fun _ => ok, fun _ => rfl⟩
  · exact ⟨nofun, fun other => absurd other ok⟩

/-- The cursors are saved, if they have to be. -/
theorem saved_iff :
    (when cursor.multiple (perform env (.saveAllCursors cursor.pgnoRoot)) history).1 = .ok () ↔
      (cursor.multiple = true → (env history (.saveAllCursors cursor.pgnoRoot)).rc = .ok) := by
  cases multiple : cursor.multiple with
  | false => exact ⟨fun _ => nofun, fun _ => rfl⟩
  | true => exact perform_ok_iff.trans ⟨fun saved _ => saved, fun saved => saved rfl⟩

/-- Such a deletion reads an integer key from a cursor with key info. -/
theorem integerKey_of_unlocked (inserted : cursor.transIsUsed = true)
    (kind : schema.Unlocked cursor.pgnoRoot) :
    .integerKey (cursor.on schema .ins) ∈ (deleteSaved schema env cursor history).2 := by
  unfold deleteSaved
  rw [if_pos inserted]
  refine mem_calls_bind.2 (Or.inl ?_)
  have other : ¬ ((cursor.on schema .shared).pKeyInfo &&
      cursor.rowlockIsUniqueIndex schema) = true := by
    simp [TransCursor.rowlockIsUniqueIndex, kind.2]
  unfold releaseInserted
  rw [if_neg other]
  exact mem_calls_bind.2 (Or.inl (List.mem_singleton_self _))

/-- A deletion respects the kind exactly if it is no such one. -/
theorem delete_respects_iff :
    (∀ call ∈ (sqlite3TransBtreeDelete schema env cursor history).2, Respects schema call) ↔
      ¬ (cursor.pCurIns = true ∧ cursor.transIsUsed = true ∧
        schema.Unlocked cursor.pgnoRoot ∧
        (cursor.multiple = true →
          (env history (.saveAllCursors cursor.pgnoRoot)).rc = .ok)) := by
  unfold sqlite3TransBtreeDelete
  by_cases used : cursor.pCurIns = true
  · rw [if_pos used]
    constructor
    · rintro respects ⟨-, inserted, kind, saved⟩
      have read := respects _ (mem_calls_bind.2 (Or.inr ⟨(), saved_iff.2 saved,
        integerKey_of_unlocked inserted kind⟩))
      exact absurd (kind.1.symm.trans read) nofun
    · intro keeps call member
      rcases mem_calls_bind.1 member with early | ⟨_, saved, late⟩
      · exact Makes.when (fun _ => makes_perform trivial) history call early
      · refine makes_deleteSaved (fun inserted kind => keeps ?_) _ call late
        exact ⟨used, inserted, kind, saved_iff.1 saved⟩
  · rw [if_neg used]
    exact ⟨fun _ bad => used bad.1, fun _ => makes_perform trivial history⟩

end Delete

section Commit

/-- A row read from the insertion tree. -/
theorem gives_insertedRow :
    Gives (fun pX => pX.pKey.isSome = table.pKeyInfo) (insertedRow env table) := by
  refine .bind fun key => .ite (fun index => .pure ?_) fun row => .bind fun nKey => .pure ?_
  · simp [index]
  · simpa using row

/-- Reading it. -/
theorem makes_insertedRow : Makes (Respects schema) (insertedRow env table) := by
  refine .bind makes_btreePayloadWithMalloc fun key => .ite (fun _ => .pure _) fun row => ?_
  exact .bind (.ask env (by simpa [Respects, CommitTable.on] using row)) fun nKey => .pure _

/-- The insertions of the replay. -/
theorem makes_commitInsertLoop (rows : Nat) :
    Makes (Respects schema) (commitInsertLoop env table rows) := by
  induction rows with
  | zero => exact .pure ()
  | succ rows ih =>
    refine .bind_gives makes_insertedRow gives_insertedRow fun pX agrees => ?_
    refine .bind (makes_btreeMoveto agrees) fun res => ?_
    refine .bind (makes_perform trivial) fun _ => ?_
    exact .bind (.ask env trivial) fun next => makes_afterNext ih

/-- Reading a deleted row. -/
theorem makes_deletedRow : Makes (Respects schema) (deletedRow env table) := by
  refine .ite (fun _ => .bind makes_btreePayloadWithMalloc fun key => .pure _) fun row => ?_
  exact .bind (.ask env (by simpa [Respects, CommitTable.on] using row)) fun nKey => .pure _

/-- The deletions of the replay. -/
theorem makes_commitDeleteLoop (rows : Nat) :
    Makes (Respects schema) (commitDeleteLoop env table rows) := by
  induction rows with
  | zero => exact .pure ()
  | succ rows ih =>
    refine .bind makes_deletedRow fun pX => ?_
    refine .bind makes_btreeCursorMovetoKey fun res => ?_
    refine .bind (makes_perform trivial) fun _ => ?_
    exact .bind (.ask env trivial) fun next => makes_afterNext ih

/-- The replay respects the kind of its entry. -/
theorem makes_commitReplay (rows : Nat) (tables : List CommitTable) :
    Makes (Respects schema) (commitReplay env rows tables) := by
  refine .each (fun table => ?_) tables
  refine .bind (makes_perform trivial) fun _ => .bind (makes_perform trivial) fun _ => ?_
  refine .bind ?_ fun _ => ?_
  · refine .ite (fun _ => makes_perform trivial) fun _ => .ite (fun _ => .pure ()) fun _ => ?_
    exact .bind (makes_attempt trivial) fun first => .when fun _ => makes_commitDeleteLoop rows
  · exact .bind (makes_attempt trivial) fun first => .when fun _ => makes_commitInsertLoop rows

end Commit

/-- So do all operations but such a deletion. -/
theorem perform_respects_iff (s : Session Key) (op : RowOp Key) :
    (∀ call ∈ (op.perform schema env s.cursors s.calls).2, Respects schema call) ↔
      KeepsKind schema env s op := by
  cases op with
  | cursor id opened => exact ⟨fun _ => trivial, fun _ => Makes.pure _ s.calls⟩
  | insert id nKey record append seekResult =>
    refine ⟨fun _ => trivial, fun _ => ?_⟩
    refine Makes.bind (makes_insert ?_) (fun moved => .pure _) s.calls
    unfold TransCursor.payload
    cases schema.isIndex (s.cursors id).pgnoRoot <;> rfl
  | delete id =>
    refine Iff.trans ?_ delete_respects_iff
    refine forall_congr' fun call => imp_congr_left ?_
    refine mem_calls_bind.trans ⟨?_, Or.inl⟩
    rintro (made | ⟨_, _, made⟩)
    · exact made
    · cases made
  | commit rows tables =>
    exact ⟨fun _ => trivial,
      fun _ => Makes.bind (makes_commitReplay rows tables) (fun _ => .pure _) s.calls⟩

/-- So do sessions. -/
theorem run_respects_iff (s : Session Key) (ops : List (RowOp Key)) :
    (∀ call ∈ (run (rowStep schema env) s ops).calls, Respects schema call) ↔
      (∀ call ∈ s.calls, Respects schema call) ∧
        Guarded (rowStep schema env) (KeepsKind schema env) s ops := by
  induction ops generalizing s with
  | nil => exact (and_iff_left trivial).symm
  | cons op rest ih =>
    have calls : (rowStep schema env s op).calls =
        s.calls ++ (op.perform schema env s.cursors s.calls).2 := rfl
    refine (ih (rowStep schema env s op)).trans ?_
    rw [calls, List.forall_mem_append, perform_respects_iff, and_assoc]
    rfl

/-- In every session every call respects the kind of its tree, exactly if no record that the
transaction inserted into an index that is not unique is deleted. -/
theorem calls_respect_kind_iff (schema : Schema)
    (env : Environment (Call Key) (Answer Key)) (cursors : Nat → TransCursor)
    (ops : List (RowOp Key)) :
    (∀ call ∈ (run (rowStep schema env) ⟨cursors, []⟩ ops).calls, Respects schema call) ↔
      Guarded (rowStep schema env) (KeepsKind schema env) ⟨cursors, []⟩ ops := by
  rw [run_respects_iff]
  exact and_iff_right nofun

/-- Every call succeeds, and no search finds its key. -/
def obliging : Environment (Call Nat) (Answer Nat) := fun _ _ => ⟨.ok, 1, 0⟩

/-- Only indexes that are not unique. -/
def plainIndexes : Schema := ⟨fun _ => true, fun _ => .indexNormal⟩

/-- A cursor on a record of the shared tree. -/
def indexCursor : TransCursor := ⟨tableTwo, true, false, false, true, false⟩

/-- A record is inserted into an index that is not unique, and deleted again. The deletion reads an
integer key, searches the deletion tree without an unpacked key, and releases a row lock. -/
theorem delete_of_inserted_record :
    let s := run (rowStep plainIndexes obliging) ⟨fun _ => indexCursor, []⟩
      [.insert 0 1 7 false 0, .delete 0]
    let broken := fun call : Call Nat => call ∈ s.calls ∧ ¬ Respects plainIndexes call
    broken (.integerKey ⟨tableTwo, .ins, true⟩) ∧
      broken (.movetoUnpacked ⟨tableTwo, .del, true⟩ none 1) ∧
      broken (.ipcUnlockRecord tableTwo 1) := by
  decide

end SQLumDash.Btree
