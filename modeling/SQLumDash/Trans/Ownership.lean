import SQLumDash.Trans.IndexSteps

/-!
# Locks stay with their owner

An unlock finds its lock by the row or the record alone, whoever holds it. A row that is taken back
is unlocked but stays in the history, so that another connection can lock it while the transaction
still names it. Where no lock is granted on what another open transaction names, no step removes the
lock of another connection.
-/

namespace SQLumDash.Trans

open Ipc Psm Hash Savepoint Runs Std

variable {Record Data : Type} {layout : Layout Record} {s s' : System layout Data}
  {conn other : Conn} {t : RootPage} {row : Int} {key : Record} {action : Action Record Data}

/-- The transaction may unlock the row: its history, its insertion tree or that of a savepoint has
it. -/
def Transaction.NamesRow (trans : Transaction layout Data) (t : RootPage) (row : Int) : Prop :=
  .record t row ∈ trans.history ∨ trans.trees.InsertsRow t row ∨
    ∃ point ∈ trans.saved, point.2.InsertsRow t row

/-- It may unlock what a search for the record finds. -/
def Transaction.NamesRecord (trans : Transaction layout Data) (t : RootPage) (key : Record) : Prop :=
  .index t key ∈ trans.history ∨ trans.trees.StoresRecord t key ∨
    ∃ point ∈ trans.saved, point.2.StoresRecord t key

/-- Named rows are locked by no other connection. -/
def OwnedRows (s : System layout Data) : Prop :=
  ∀ conn t row, (s.trans conn).NamesRow t row → ∀ holder, s.holder t row = some holder →
    holder = conn.1

/-- What a transaction names is locked by no other connection. -/
structure Owned (s : System layout Data) : Prop where
  rows : OwnedRows s
  records : ∀ conn t key, (s.trans conn).NamesRecord t key → ∀ elem ∈ s.entries t,
    layout.lock.record.recordComparator t elem.key key = true → elem.data = conn.1

/-- A row is locked only if no other transaction names it. -/
def UnnamedRow (s : System layout Data) (action : Action Record Data) : Prop :=
  ∀ t row, action.requestedRow = some (t, row) → (s.lockRow action.conn t row).1 = .ok →
    ∀ other, other ≠ action.conn → ¬ (s.trans other).NamesRow t row

/-- A lock is granted only on what no other transaction names, and on a record whose equal locks are
the connection's own. -/
structure Unnamed (s : System layout Data) (action : Action Record Data) : Prop where
  rows : UnnamedRow s action
  records : ∀ t key, action.requestedRecord s = some (t, key) →
    (s.lockIndex action.conn action.alloc t key).1 = .ok → ∀ other, other ≠ action.conn →
      ∀ named, (s.trans other).NamesRecord t named →
        layout.lock.record.recordComparator t key named = false
  own : ∀ t key, action.requestedRecord s = some (t, key) →
    (s.lockIndex action.conn action.alloc t key).1 = .ok ∨
      (s.lockIndex action.conn action.alloc t key).1 = .done →
      ∀ elem ∈ s.entries t, layout.lock.record.recordComparator t elem.key key = true →
        elem.data = action.conn.1

/-- What is found is among the savepoints. -/
theorem savedAt_mem {saved below : List (Int × Trees layout Data)} {iSavepoint : Int}
    {trees : Trees layout Data} (found : System.savedAt saved iSavepoint = some (trees, below)) :
    ((iSavepoint, trees) :: below) ⊆ saved := by
  induction saved with
  | nil => cases found
  | cons entry rest ih =>
    unfold System.savedAt at found
    split_ifs at found with same
    · cases found
      rw [← same]
      exact fun _ member => member
    · exact fun _ member => List.mem_cons_of_mem _ (ih found member)

/-- A transaction that has not written names no row. -/
theorem idle_names_no_row : ¬ (Transaction.idle : Transaction layout Data).NamesRow t row := by
  rintro (recorded | inserted | ⟨point, member, -⟩)
  · cases recorded
  · exact absurd inserted ExtTreeMap.not_mem_empty
  · cases member

/-- A transaction newly names what it records or writes. -/
theorem names_step (trans : Transaction layout Data) {trans' : Transaction layout Data}
    {record : RowRecord Record} (P : Trees layout Data → Prop) (Q : Prop)
    (names : record ∈ trans'.history ∨ P trans'.trees ∨ ∃ point ∈ trans'.saved, P point.2)
    (recorded : record ∈ trans'.history → record ∈ trans.history ∨ Q)
    (written : P trans'.trees → (P trans.trees ∨ ∃ point ∈ trans.saved, P point.2) ∨ Q)
    (saved : ∀ point ∈ trans'.saved, point ∈ trans.saved ∨ point.2 = trans.trees) :
    (record ∈ trans.history ∨ P trans.trees ∨ ∃ point ∈ trans.saved, P point.2) ∨ Q := by
  rcases names with new | new | ⟨point, member, new⟩
  · exact (recorded new).imp_left Or.inl
  · exact (written new).imp_left Or.inr
  · rcases saved point member with old | same
    · exact Or.inl (Or.inr (Or.inr ⟨point, old, new⟩))
    · exact Or.inl (Or.inr (Or.inl (same ▸ new)))

section Rows

variable {request taken : Option (RootPage × Int)}

section

variable (rowStep : RowStep request taken conn s s')

include rowStep

/-- A row that a transaction newly names is held by it. -/
theorem RowStep.names (names : (s'.trans conn).NamesRow t row) :
    (s.trans conn).NamesRow t row ∨ s'.holder t row = some conn.1 := by
  have step := names_step (s.trans conn) (·.InsertsRow t row) (s'.holder t row = some conn.1) names
  cases rowStep with
  | kept holder _ inserts new quiet log saved =>
    refine step (fun recorded => ?_) (fun inserted => ?_) fun _ member => Or.inl (saved ▸ member)
    · unfold Transaction.history at recorded
      rw [log] at recorded
      exact Or.inl ((List.mem_append.1 recorded).resolve_left (quiet t row))
    · rw [holder]
      exact (inserts t row inserted).imp_left Or.inl
  | locked iTable rowid _ _ _ holder _ inserts log saved =>
    have here : t = iTable ∧ row = rowid → s'.holder t row = some conn.1 := fun same => by
      rw [holder, if_pos same]
    refine step (fun recorded => ?_) (fun inserted => ?_) fun _ member => Or.inl (saved ▸ member)
    · unfold Transaction.history at recorded
      rw [log] at recorded
      rcases List.mem_cons.1 recorded with fresh | old
      · injection fresh with table number
        exact Or.inr (here ⟨table, number⟩)
      · exact Or.inl old
    · exact (inserts t row inserted).imp Or.inl here
  | unlocked _ _ _ _ _ _ _ inserts log saved =>
    refine step (fun recorded => ?_) (fun inserted => ?_) fun _ member => Or.inl (saved ▸ member)
    · unfold Transaction.history at recorded
      rw [log] at recorded
      exact Or.inl recorded
    · exact Or.inl (Or.inl (inserts t row inserted))
  | opened _ trees log saved =>
    refine step (fun recorded => ?_) (fun inserted => ?_) fun point member => ?_
    · unfold Transaction.history at recorded
      rw [log] at recorded
      exact Or.inl recorded
    · exact Or.inl (Or.inl (trees ▸ inserted))
    · rw [saved] at member
      rcases List.mem_cons.1 member with rfl | old
      · exact Or.inr rfl
      · exact Or.inl old
  | rolledBack newer older iSavepoint trees lower below found _ history _ _ trans =>
    have inside := savedAt_mem found
    rw [trans] at step
    refine step (fun recorded => ?_) (fun inserted => ?_) fun _ member => Or.inl (inside member)
    · rw [history]
      exact Or.inl (List.mem_append_right newer recorded)
    · exact Or.inl (Or.inr ⟨(iSavepoint, trees), inside List.mem_cons_self, inserted⟩)
  | released iSavepoint trees position lower below found _ _ trans =>
    rw [trans] at step
    exact step Or.inl (fun inserted => Or.inl (Or.inl inserted))
      fun _ member => Or.inl (savedAt_mem found (List.mem_cons_of_mem _ member))
  | finished _ trans =>
    rw [trans] at names
    exact absurd names idle_names_no_row

/-- A row that is held was, or was just granted. -/
theorem RowStep.holder_cases {holder : Handle} (held : s'.holder t row = some holder) :
    s.holder t row = some holder ∨
      holder = conn.1 ∧ request = some (t, row) ∧ (s.lockRow conn t row).1 = .ok := by
  cases rowStep with
  | kept same => exact Or.inl ((same t row).symm.trans held)
  | locked iTable rowid requested granted _ after =>
    rw [after] at held
    split_ifs at held with here
    · obtain ⟨rfl, rfl⟩ := here
      exact Or.inr ⟨(Option.some.inj held).symm, requested, granted⟩
    · exact Or.inl held
  | unlocked _ _ _ _ _ after =>
    rw [after] at held
    split_ifs at held
    exact Or.inl held
  | opened same => exact Or.inl ((same t row).symm.trans held)
  | rolledBack newer _ _ _ _ _ _ _ _ freed same =>
    by_cases undone : RowRecord.record t row ∈ newer
    · rw [freed t row undone] at held
      cases held
    · exact Or.inl ((same t row undone).symm.trans held)
  | released _ _ _ _ _ _ _ same => exact Or.inl ((same t row).symm.trans held)
  | finished after =>
    rw [after] at held
    split_ifs at held
    exact Or.inl held

/-- A step leaves a row to another connection, if it has not inserted it and undoes no record of it.
-/
theorem RowStep.keeps (apart : other ≠ conn) (inserts : ¬ (s.trans conn).trees.InsertsRow t row)
    (undoes : (s.trans conn).saved = [] ∨ .record t row ∉ (s.trans conn).history)
    (held : s.holder t row = some other.1) : s'.holder t row = some other.1 := by
  cases rowStep with
  | kept same => rw [same, held]
  | locked iTable rowid _ _ free after =>
    rw [after, if_neg, held]
    rintro ⟨rfl, rfl⟩
    rw [held] at free
    cases free
  | unlocked iTable rowid _ _ inserted after =>
    rw [after, if_neg, held]
    rintro ⟨rfl, rfl⟩
    exact inserts inserted
  | opened same => rw [same, held]
  | rolledBack newer _ _ _ _ _ found _ history _ same =>
    rw [same t row, held]
    intro undone
    rcases undoes with none_ | outside
    · rw [none_] at found
      cases found
    · rw [history] at outside
      exact outside (List.mem_append_left _ undone)
  | released _ _ _ _ _ _ _ same => rw [same, held]
  | finished after =>
    rw [after, held, if_neg]
    exact fun same => apart (Subtype.ext (Option.some.inj same))

/-- A step leaves to others the rows that it does not name. -/
theorem RowStep.keeps_owned (apart : other ≠ conn) (owned : OwnedRows s)
    (held : s.holder t row = some other.1) : s'.holder t row = some other.1 := by
  have foreign : ¬ (s.trans conn).NamesRow t row := fun names =>
    apart (Subtype.ext (owned conn t row names other.1 held))
  exact rowStep.keeps apart (fun inserted => foreign (Or.inr (Or.inl inserted)))
    (Or.inr fun recorded => foreign (Or.inl recorded)) held

end

end Rows

section Records

variable {request taken : Option (RootPage × Record)} {alloc : PsmAlloc}

section

variable (indexStep : IndexStep alloc request taken conn s s')

include indexStep

/-- A newly named record is the requested one. -/
theorem IndexStep.names (names : (s'.trans conn).NamesRecord t key) :
    (s.trans conn).NamesRecord t key ∨ request = some (t, key) ∧
      ((s.lockIndex conn alloc t key).1 = .ok ∨ (s.lockIndex conn alloc t key).1 = .done) := by
  have step := names_step (s.trans conn) (·.StoresRecord t key) (request = some (t, key) ∧
    ((s.lockIndex conn alloc t key).1 = .ok ∨ (s.lockIndex conn alloc t key).1 = .done)) names
  cases indexStep with
  | kept _ trees new quiet history saved =>
    refine step (fun recorded => ?_) (fun stored => ?_) fun _ member => Or.inl (saved ▸ member)
    · rw [history] at recorded
      exact Or.inl ((List.mem_append.1 recorded).resolve_left (quiet t key))
    · unfold Trees.StoresRecord at stored ⊢
      rw [trees] at stored
      exact Or.inl (Or.inl stored)
  | held iTable record requested answered _ _ _ _ stores _ history saved =>
    refine step (fun recorded => Or.inl (history ▸ recorded)) (fun stored => ?_)
      fun _ member => Or.inl (saved ▸ member)
    rcases stores t key stored with before | ⟨rfl, rfl⟩
    · exact Or.inl (Or.inl before)
    · exact Or.inr ⟨requested, Or.inr answered⟩
  | locked iTable record requested granted _ _ stores _ history saved =>
    refine step (fun recorded => ?_) (fun stored => ?_) fun _ member => Or.inl (saved ▸ member)
    · rw [history] at recorded
      rcases List.mem_cons.1 recorded with fresh | old
      · injection fresh with table named
        subst table named
        exact Or.inr ⟨requested, Or.inl granted⟩
      · exact Or.inl old
    · rcases stores t key stored with before | ⟨rfl, rfl⟩
      · exact Or.inl (Or.inl before)
      · exact Or.inr ⟨requested, Or.inl granted⟩
  | unlocked _ _ _ _ _ stores _ history saved =>
    exact step (fun recorded => Or.inl (history ▸ recorded))
      (fun stored => Or.inl (Or.inl (stores t key stored))) fun _ member => Or.inl (saved ▸ member)
  | savepoints _ trees history saved =>
    exact step (fun recorded => Or.inl (history ▸ recorded))
      (fun stored => Or.inl (Or.inl (trees ▸ stored))) saved
  | rolledBack newer older number _ before history trees saved =>
    refine step (fun recorded => ?_) (fun stored => Or.inl (Or.inr ⟨_, trees, stored⟩))
      fun point member => Or.inl (saved point member)
    rw [before]
    exact Or.inl (List.mem_append_right newer (history ▸ recorded))
  | finished _ trans =>
    rw [trans] at names
    rcases names with recorded | stored | ⟨point, member, stored⟩
    · cases recorded
    · exact absurd stored (idle_stores_no_record t key)
    · cases member

/-- A record that is locked was, or was just granted. -/
theorem IndexStep.mem_entries {elem : HashElem Record Handle} (member : elem ∈ s'.entries t) :
    elem ∈ s.entries t ∨ elem.data = conn.1 ∧ request = some (t, elem.key) ∧
      (s.lockIndex conn alloc t elem.key).1 = .ok := by
  cases indexStep with
  | kept same | held _ _ _ _ _ _ _ same => exact Or.inl (same t ▸ member)
  | locked iTable record requested granted _ entries =>
    rcases entries with added | ⟨-, same⟩
    · rw [added] at member
      split_ifs at member with here
      · subst here
        rcases Multiset.mem_cons.1 member with rfl | inside
        · exact Or.inr ⟨rfl, requested, granted⟩
        · exact Or.inl inside
      · exact Or.inl member
    · exact Or.inl (same t ▸ member)
  | unlocked _ _ _ _ outcome => exact Or.inl (Multiset.mem_of_le (outcome.le t) member)
  | savepoints same => exact Or.inl (same t ▸ member)
  | rolledBack _ _ _ removes => exact Or.inl (Multiset.mem_of_le (removes.le t) member)
  | finished entries =>
    rw [entries] at member
    exact Or.inl (Multiset.mem_filter.1 member).1

/-- A step leaves the records of others alone. -/
theorem IndexStep.keeps (apart : other ≠ conn)
    (owned : ∀ t key, (s.trans conn).NamesRecord t key → ∀ elem ∈ s.entries t,
      layout.lock.record.recordComparator t elem.key key = true → elem.data = conn.1) (t : RootPage) :
    (s'.entries t).filter (fun elem => elem.data = other.1) =
      (s.entries t).filter fun elem => elem.data = other.1 := by
  have foreign : ∀ {elem : HashElem Record Handle}, elem.data = conn.1 → ¬ elem.data = other.1 :=
    fun mine his => apart (Subtype.ext (his.symm.trans mine))
  cases indexStep with
  | kept same | held _ _ _ _ _ _ _ same => rw [same]
  | locked iTable record _ _ _ entries =>
    rcases entries with added | ⟨-, same⟩
    · rw [added]
      split_ifs
      · exact Multiset.filter_cons_of_neg _ (foreign rfl)
      · rfl
    · rw [same]
  | unlocked iTable record _ stored outcome =>
    refine outcome.spared (fun elem => elem.data = other.1) (fun elem sees => ?_) t
    exact foreign (owned iTable record (Or.inr (Or.inl stored)) elem sees.member sees.equal)
  | savepoints same => rw [same]
  | rolledBack newer _ _ removes before =>
    refine removes.spared (fun elem => elem.data = other.1) (fun t key undone elem inside equal => ?_)
      t
    refine foreign (owned t key (Or.inl ?_) elem inside equal)
    rw [before]
    exact List.mem_append_left _ undone
  | finished entries =>
    rw [entries, Multiset.filter_filter]
    refine Multiset.filter_congr fun elem _ => and_iff_left_of_imp ?_
    exact fun his mine => foreign mine his

end

end Records

/-- A step keeps named rows owned. -/
theorem OwnedRows.step (owned : OwnedRows s) (aligned : s.Aligned) (unnamed : UnnamedRow s action) :
    OwnedRows (step s action) := by
  have rowStep := step_rowStep action (aligned action.conn)
  intro conn t row names holder held
  by_cases mine : conn = action.conn
  · subst mine
    rcases rowStep.names names with before | own
    · rcases rowStep.holder_cases held with held | ⟨own, -⟩
      · exact owned _ t row before holder held
      · exact own
    · exact Option.some.inj (held.symm.trans own)
  · rw [step_others s action mine] at names
    rcases rowStep.holder_cases held with held | ⟨-, requested, granted⟩
    · exact owned conn t row names holder held
    · exact absurd names (unnamed t row requested granted conn mine)

/-- A step keeps what is named owned. -/
theorem Owned.step (owned : Owned s) (aligned : s.Aligned) (unnamed : Unnamed s action) :
    Owned (step s action) := by
  have indexStep := step_indexStep action (aligned action.conn)
  refine ⟨owned.rows.step aligned unnamed.rows, fun conn t key names elem member equal => ?_⟩
  by_cases mine : conn = action.conn
  · subst mine
    rcases indexStep.mem_entries member with inside | ⟨own, -⟩
    · rcases indexStep.names names with before | ⟨requested, answered⟩
      · exact owned.records _ t key before elem inside equal
      · exact unnamed.own t key requested answered elem inside equal
    · exact own
  · rw [step_others s action mine] at names
    rcases indexStep.mem_entries member with inside | ⟨-, requested, granted⟩
    · exact owned.records conn t key names elem inside equal
    · have differ := unnamed.records t elem.key requested granted conn mine key names
      rw [equal] at differ
      cases differ

section

variable (tables : RootPage → ExtTreeMap Int Data)
  (indexes : (t : RootPage) → ExtTreeMap Record Unit (layout.cmp t))

include tables indexes

/-- At the start nothing is locked. -/
theorem init_ownedRows : OwnedRows (System.init tables indexes) := by
  intro conn t row _ holder held
  have free : (System.init tables indexes).holder t row = none := RowLockTable.init_holder
  rw [free] at held
  cases held

/-- At the start nothing is locked. -/
theorem init_owned : Owned (System.init tables indexes) where
  rows := init_ownedRows tables indexes
  records _ _ _ _ elem member := absurd member (Multiset.notMem_zero elem)

/-- What guarded steps reach is aligned and owned. -/
theorem owned_run {actions : List (Action Record Data)}
    (guarded : Guarded step Unnamed (System.init tables indexes) actions) :
    (run step (System.init tables indexes) actions).Aligned ∧
      Owned (run step (System.init tables indexes) actions) := by
  apply guarded.invariant (P := fun s => s.Aligned ∧ Owned s)
  · rintro s action ⟨aligned, owned⟩ unnamed
    exact ⟨step_aligned action aligned, owned.step aligned unnamed⟩
  · exact ⟨init_aligned tables indexes, init_owned tables indexes⟩

end

/-- The locks of a connection are what they were. -/
structure KeepsLocks (other : Conn) (s s' : System layout Data) : Prop where
  rows : ∀ t row, s.holder t row = some other.1 → s'.holder t row = some other.1
  records : ∀ t, (s'.entries t).filter (fun elem => elem.data = other.1) =
    (s.entries t).filter fun elem => elem.data = other.1

/-- After any run in which no lock was granted on what another open transaction names, no step of a
connection removes or changes a lock of another. -/
theorem locks_stay_with_owner (tables : RootPage → ExtTreeMap Int Data)
    (indexes : (t : RootPage) → ExtTreeMap Record Unit (layout.cmp t))
    (actions : List (Action Record Data))
    (guarded : Guarded step Unnamed (System.init tables indexes) actions)
    (action : Action Record Data) (other : Conn) (apart : other ≠ action.conn) :
    KeepsLocks other (run step (System.init tables indexes) actions)
      (step (run step (System.init tables indexes) actions) action) := by
  obtain ⟨aligned, owned⟩ := owned_run tables indexes guarded
  constructor
  · intro t row held
    exact (step_rowStep action (aligned action.conn)).keeps_owned apart owned.rows held
  · exact (step_indexStep action (aligned action.conn)).keeps apart
      fun t key => owned.records action.conn t key

/-- The layout of the concrete runs. -/
def smallLayout : Layout Nat := ⟨smallConfig, fun _ => compare, fun _ => inferInstance⟩

/-- A system with empty tables and indexes. -/
def emptySystem : System smallLayout Unit := .init (fun _ => ∅) (fun _ => ∅)

/-- An insertion of row 5. -/
def insertFive (conn : Conn) : Action Nat Unit :=
  .insertTable conn tableTwo true false false 5 ()

/-- B is refused the row that A has inserted. -/
theorem locks_stay_with_owner_insert :
    Guarded step Unnamed emptySystem [insertFive connA] ∧ connA ≠ (insertFive connB).conn ∧
    KeepsLocks connA (run step emptySystem [insertFive connA])
      (step (run step emptySystem [insertFive connA]) (insertFive connB)) := by
  have guarded : Guarded step Unnamed emptySystem [insertFive connA] := by
    refine ⟨⟨fun _ _ _ _ _ _ names => idle_names_no_row names, nofun, nofun⟩, trivial⟩
  exact ⟨guarded, by decide, locks_stay_with_owner (fun _ => ∅) (fun _ => ∅) [insertFive connA]
    guarded (insertFive connB) connA (by decide)⟩

/-- A inserts row 5 and deletes it, and B inserts it. A's rollback to its savepoint unlocks it. -/
theorem rollback_unlocks_row_of_other :
    let before := run step emptySystem
      [.savepoint connA, insertFive connA, .deleteTable connA tableTwo true 5, insertFive connB]
    before.holder tableTwo 5 = some connB.1 ∧
      (step before (.endSavepoint connA .rollback 0)).holder tableTwo 5 = none := by
  decide

end SQLumDash.Trans
