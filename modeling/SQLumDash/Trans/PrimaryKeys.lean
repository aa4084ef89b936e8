import SQLumDash.Lib.Covering
import SQLumDash.Psm.RecordLocks
import SQLumDash.Trans.Ownership

/-!
# Tables without rowids

The lock of a row is on the whole record: two records of one primary key have two locks. A record
that is taken back is unlocked even if the deletion tree has its key, and a lock for which there is
no memory is granted and lost. Where none of this happens and the search finds the locks of its
primary key and no others, the pending changes of different connections have different primary keys.
-/

namespace SQLumDash.Trans

open Ipc Psm Hash Savepoint Runs Std

variable {Record Data : Type} {layout : Layout Record} {s s' : System layout Data} {conn : Conn}
  {t : RootPage} {key key' : Record} {request taken : Option (RootPage × Record)} {alloc : PsmAlloc}

/-- Locks of records with one primary key are related. -/
def keyScheme (layout : Layout Record) (t : RootPage) :
    Covering.Scheme (HashElem Record Handle) Handle Record Conn where
  owner := HashElem.data
  key := HashElem.key
  name := Subtype.val
  related key key' := layout.cmp t key key' = .eq
  symm := OrientedCmp.eq_symm
  trans := TransCmp.eq_trans

/-- Pending changes are locked, and one connection has the locks of a primary key. -/
def KeysLocked (s : System layout Data) : Prop :=
  ∀ t, (keyScheme layout t).Covers (s.entries t) fun conn => (s.trans conn).trees.WritesRecord t

/-- The search finds the locks of the primary key, no lock is lost, and no deleted key is taken
back. -/
structure KeyedSearch (alloc : PsmAlloc) (s : System layout Data) (conn : Conn)
    (request taken : Option (RootPage × Record)) : Prop where
  /-- No lock is lost. -/
  stored : ∀ t key, request = some (t, key) → alloc.loses = false
  /-- A lock of another connection on the key is found. -/
  finds : ∀ t key, request = some (t, key) → ∀ elem ∈ s.entries t, elem.data ≠ conn.1 →
    layout.cmp t elem.key key = .eq → s.locks.records.pList.Sees layout.lock.record t key elem
  /-- Only locks on the key are found. -/
  only : ∀ t key, request = some (t, key) ∨ taken = some (t, key) → ∀ elem,
    s.locks.records.pList.Sees layout.lock.record t key elem → layout.cmp t elem.key key = .eq
  /-- No key is taken back that the deletion tree has. -/
  fresh : ∀ t key, taken = some (t, key) → key ∉ ((s.trans conn).trees.indexes t).del

/-- The record that is taken back is pending. -/
theorem Trees.StoresRecord.writes {trees : Trees layout Data} (stored : trees.StoresRecord t key) :
    trees.WritesRecord t key :=
  Or.inl (ExtTreeMap.mem_iff_isSome_getKey?.2 (by rw [stored]; rfl))

/-- A transaction that has not written has no pending records. -/
theorem idle_writes_no_record (t : RootPage) (key : Record) :
    ¬ (Transaction.idle : Transaction layout Data).trees.WritesRecord t key := by
  rintro (inserted | deleted)
  · exact absurd inserted ExtTreeMap.not_mem_empty
  · exact absurd deleted ExtTreeMap.not_mem_empty

/-- A record that is taken back. -/
theorem KeysLocked.unlocked (locked : KeysLocked s)
    (outcome : UnlockOutcome layout.lock.record s.locks.records.pList t key s'.locks.records.pList)
    (only : ∀ elem, s.locks.records.pList.Sees layout.lock.record t key elem →
      layout.cmp t elem.key key = .eq)
    (pending : (s.trans conn).trees.WritesRecord t key)
    (others : ∀ other, other ≠ conn → s'.trans other = s.trans other)
    (writes : ∀ t' key', (s'.trans conn).trees.WritesRecord t' key' →
      (s.trans conn).trees.WritesRecord t' key' ∧ ¬ (t' = t ∧ layout.cmp t' key key' = .eq)) :
    KeysLocked s' := by
  intro t'
  refine (locked t').released (Multiset.subset_of_le (outcome.le t')) ?_
  intro conn' key' after
  by_cases mine : conn' = conn
  · subst mine
    obtain ⟨before, apart⟩ := writes t' key' after
    refine ⟨before, fun elem member _ same => outcome.mem member ?_⟩
    rintro rfl sees
    exact apart ⟨rfl, TransCmp.eq_trans (OrientedCmp.eq_symm (only elem sees)) same⟩
  · rw [others conn' mine] at after
    refine ⟨after, fun elem member owns same => outcome.mem member ?_⟩
    rintro rfl sees
    -- What the search finds is the lock of the connection that takes the record back.
    have owner : elem.data = conn.1 := (locked t').owner_eq pending member (only elem sees)
    exact mine (Subtype.ext (Eq.trans (Eq.symm owns) owner))

/-- A step with a keyed search keeps pending changes locked. -/
theorem KeysLocked.step (locked : KeysLocked s) (indexStep : IndexStep alloc request taken conn s s')
    (others : ∀ other, other ≠ conn → s'.trans other = s.trans other)
    (plain : (s.trans conn).saved = []) (keyed : KeyedSearch alloc s conn request taken) :
    KeysLocked s' := by
  -- The pending changes of the others are what they were.
  have elsewhere : ∀ {P : RootPage → Record → Prop},
      (∀ t key, (s'.trans conn).trees.WritesRecord t key →
        (s.trans conn).trees.WritesRecord t key ∨ P t key) →
      ∀ t conn' key, (s'.trans conn').trees.WritesRecord t key →
        (s.trans conn').trees.WritesRecord t key ∨ conn' = conn ∧ P t key := by
    intro P mine t conn' key after
    by_cases same : conn' = conn
    · subst same
      exact (mine t key after).imp_right fun new => ⟨rfl, new⟩
    · rw [others conn' same] at after
      exact Or.inl after
  have unwritten : (∀ t, s'.entries t = s.entries t) →
      (∀ t key, (s'.trans conn).trees.WritesRecord t key →
        (s.trans conn).trees.WritesRecord t key) → KeysLocked s' := by
    intro entries writes t
    rw [entries]
    refine (locked t).written fun conn' key after => Or.inl ?_
    have before := elsewhere (P := fun _ _ => False) (fun t key after => Or.inl (writes t key after))
      t conn' key after
    exact before.resolve_right fun none => none.2
  cases indexStep with
  | kept entries trees =>
    refine unwritten entries fun t key after => ?_
    unfold Trees.WritesRecord at after ⊢
    rwa [trees] at after
  | held t key requested _ elem sees mine entries _ writes =>
    intro t'
    rw [entries]
    refine (locked t').written fun conn' key' after => ?_
    refine (elsewhere writes t' conn' key' after).imp_right ?_
    rintro ⟨rfl, rfl, same⟩
    have found := keyed.only t' key (Or.inl requested) elem sees
    exact ⟨elem, sees.member, mine, TransCmp.eq_trans found same⟩
  | locked t key requested _ free entries _ writes =>
    have added := entries.resolve_right fun lost =>
      Bool.noConfusion ((keyed.stored t key requested).symm.trans lost.1)
    intro t'
    rw [added]
    split_ifs with here
    · subst here
      refine (locked t').granted rfl (fun elem member same => ?_) fun conn' key' after => ?_
      · by_contra foreign
        exact free elem (keyed.finds t' key requested elem member foreign same)
      · exact (elsewhere writes t' conn' key' after).imp_right fun new => ⟨new.1, new.2.2⟩
    · refine (locked t').written fun conn' key' after => Or.inl ?_
      exact (elsewhere writes t' conn' key' after).resolve_right fun new => here new.2.1
  | unlocked t key back stored outcome _ writes =>
    refine locked.unlocked outcome (keyed.only t key (Or.inr back)) stored.writes others
      fun t' key' after => ?_
    obtain ⟨before, deleted⟩ := writes t' key' after
    refine ⟨before, ?_⟩
    rintro ⟨rfl, same⟩
    exact keyed.fresh t' key back ((ExtTreeMap.mem_congr same).2 (deleted rfl same))
  | savepoints entries trees =>
    refine unwritten entries fun t key after => ?_
    rwa [trees] at after
  | rolledBack _ _ _ _ _ _ trees =>
    rw [plain] at trees
    cases trees
  | finished entries trans =>
    intro t
    refine (locked t).released (finished_subset entries t) fun conn' key after => ?_
    by_cases mine : conn' = conn
    · rw [mine, trans] at after
      exact absurd after (idle_writes_no_record t key)
    · rw [others conn' mine] at after
      exact ⟨after, fun elem member owns _ => mem_finished entries member owns mine⟩

/-- A step without savepoints and with a keyed search. -/
structure KeyDiscipline (s : System layout Data) (action : Action Record Data) : Prop where
  plain : ∀ conn, action ≠ .savepoint conn
  keyed : KeyedSearch action.alloc s action.conn (action.requestedRecord s) (action.takenRecord s)

/-- In every state of a run without savepoints in which no lock is lost, the search for the lock of
a record finds the locks of its primary key and no others, and no record is taken back whose key is
deleted, different connections have no pending changes of one primary key. -/
theorem pending_keys_differ (tables : RootPage → ExtTreeMap Int Data)
    (indexes : (t : RootPage) → ExtTreeMap Record Unit (layout.cmp t))
    (actions : List (Action Record Data))
    (disciplined : Guarded step KeyDiscipline (System.init tables indexes) actions)
    (conn other : Conn) (apart : conn ≠ other) (t : RootPage) (key : Record) :
    ¬ (((run step (System.init tables indexes) actions).trans conn).trees.WritesRecord t key ∧
      ((run step (System.init tables indexes) actions).trans other).trees.WritesRecord t key) := by
  have reached : (run step (System.init tables indexes) actions).Aligned ∧
      (run step (System.init tables indexes) actions).NoSavepoint ∧
      KeysLocked (run step (System.init tables indexes) actions) := by
    apply disciplined.invariant (P := fun s => s.Aligned ∧ s.NoSavepoint ∧ KeysLocked s)
    · rintro s action ⟨aligned, unsaved, locked⟩ ⟨plain, keyed⟩
      refine ⟨step_aligned action aligned, unsaved.step action plain, ?_⟩
      exact locked.step (step_indexStep action (aligned action.conn))
        (fun _ apart => step_others s action apart) (unsaved action.conn) keyed
    · refine ⟨init_aligned tables indexes, fun _ => rfl, fun t => ⟨fun conn key writes => ?_, ?_⟩⟩
      · exact absurd writes (idle_writes_no_record t key)
      · exact fun elem member => absurd member (Multiset.notMem_zero elem)
  obtain ⟨-, -, locked⟩ := reached
  rintro ⟨mine, his⟩
  exact apart (Subtype.ext ((locked t).name_eq mine his ReflCmp.compare_self))

/-- A row of two columns as it is stored. -/
def storedRow (row : UInt8 × UInt8) : Bytes := vdbeMakeRecord [.byte row.1, .byte row.2]

/-- Two columns, of which the first is the primary key. -/
def pairLayout : Layout (UInt8 × UInt8) where
  lock := ⟨smallConfig.row, smallConfig.table, fun row => blobHash (storedRow row),
    fun _ row row' => recordComparator (fun _ _ z => z) (storedRow row) (storedRow row') none = 0⟩
  cmp _ := compareOn Prod.fst
  trans _ := inferInstance

instance (trees : Trees layout Data) (t : RootPage) (key : Record) :
    Decidable (trees.WritesRecord t key) :=
  inferInstanceAs (Decidable (_ ∨ _))

/-- Every table has a row of primary key 1. -/
def pairSystem : System pairLayout Unit :=
  .init (fun _ => ∅) fun _ =>
    (∅ : ExtTreeMap (UInt8 × UInt8) Unit (compareOn Prod.fst)).insert (1, 0) ()

/-- A row is written over the one of its primary key. -/
def writeRow (conn : Conn) (alloc : PsmAlloc) (row : UInt8 × UInt8) : Action (UInt8 × UInt8) Unit :=
  .insertIndex conn alloc tableTwo false true row

/-- Two connections update one row to different values. -/
theorem updates_of_one_key_pending :
    let after := run step pairSystem [.createIndex connA .all tableTwo,
      writeRow connA .all (1, 10), writeRow connB .all (1, 20)]
    (after.trans connA).trees.WritesRecord tableTwo (1, 0) ∧
      (after.trans connB).trees.WritesRecord tableTwo (1, 0) := by
  decide

-- A lock that is lost lets the other connection write the very same record.
example :
    let after := run step pairSystem [.createIndex connA .all tableTwo,
      writeRow connA ⟨true, ⟨false, true, true⟩⟩ (1, 10), writeRow connB .all (1, 10)]
    (after.trans connA).trees.WritesRecord tableTwo (1, 10) ∧
      (after.trans connB).trees.WritesRecord tableTwo (1, 10) := by
  decide

/-- A updates primary key 1, and B primary key 2. -/
def updateTwo : List (Action (UInt8 × UInt8) Unit) :=
  [.createIndex connA .all tableTwo, writeRow connA .all (1, 10), writeRow connB .all (2, 20)]

/-- Both connections have a change pending. -/
theorem pending_keys_differ_update :
    Guarded step KeyDiscipline pairSystem updateTwo ∧ connA ≠ connB ∧
    ((run step pairSystem updateTwo).trans connA).trees.WritesRecord tableTwo (1, 0) ∧
    ((run step pairSystem updateTwo).trans connB).trees.WritesRecord tableTwo (2, 0) ∧
    ¬ (((run step pairSystem updateTwo).trans connA).trees.WritesRecord tableTwo (1, 0) ∧
      ((run step pairSystem updateTwo).trans connB).trees.WritesRecord tableTwo (1, 0)) := by
  have unlocked : (run step pairSystem (updateTwo.take 1)).entries tableTwo = 0 := by decide
  have noLock : ∀ elem, elem ∉ (run step pairSystem (updateTwo.take 1)).entries tableTwo := by
    intro elem
    rw [unlocked]
    exact Multiset.notMem_zero elem
  have oneLock : ∀ elem ∈ (run step pairSystem (updateTwo.take 2)).entries tableTwo,
      elem = ⟨connA.1, (1, 10)⟩ := by decide
  have disciplined : Guarded step KeyDiscipline pairSystem updateTwo := by
    refine ⟨⟨nofun, nofun, nofun, nofun, nofun⟩, ⟨nofun, fun _ _ _ => rfl, ?_, ?_, nofun⟩,
      ⟨nofun, fun _ _ _ => rfl, ?_, ?_, nofun⟩, trivial⟩
    · rintro _ _ ⟨⟩ elem member
      exact absurd member (noLock elem)
    · rintro _ _ (⟨⟨⟩⟩ | ⟨⟨⟩⟩) elem sees
      exact absurd sees.member (noLock elem)
    · rintro _ _ ⟨⟩ elem member _ same
      obtain rfl := oneLock elem member
      exact absurd same (by decide)
    · rintro _ _ (⟨⟨⟩⟩ | ⟨⟨⟩⟩) elem sees
      obtain rfl := oneLock elem sees.member
      exact absurd sees.equal (by decide)
  exact ⟨disciplined, by decide, by decide, by decide,
    pending_keys_differ _ _ _ disciplined connA connB (by decide) tableTwo (1, 0)⟩

end SQLumDash.Trans
