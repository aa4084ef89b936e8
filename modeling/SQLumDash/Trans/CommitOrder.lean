import SQLumDash.Trans.RowCoverage

/-!
# Row operations in commit order

A transaction locks a row before it writes it, so that the rows of different transactions are apart
and an operation changes what its own connection sees and nothing else. The shared tree is what the
committed transactions make of it one after another, where the operations on a row count for nothing
if the transaction commits without it in one of its trees. That is a row which it inserts and
deletes again: its lock is given up at once, and another transaction can insert the row and commit
first.
-/

namespace SQLumDash.Trans

open Ipc Psm Savepoint Runs Std Function
open ExtTreeMap (mem_keys contains_iff_mem not_mem_empty mem_iff_isSome_getElem?)

variable {Record Data : Type} {layout : Layout Record} {s s' : System layout Data} {conn : Conn}
  {t : RootPage} {row : Int}

/-- Rows are compared as numbers. -/
theorem ite_compare {α : Type} (row row' : Int) (yes no : α) :
    (if compare row row' = .eq then yes else no) = if row = row' then yes else no :=
  if_congr Std.compare_eq_iff_eq rfl rfl

/-- An operation on a row. -/
inductive RowOp (Data : Type) where
  | insert (rowid : Int) (data : Data)
  | update (rowid : Int) (data : Data)
  | delete (rowid : Int)

namespace RowOp

/-- The row of an operation. -/
def rowid : RowOp Data → Int
  | .insert rowid _ => rowid
  | .update rowid _ => rowid
  | .delete rowid => rowid

/-- What the row is after the operation. -/
def outcome : RowOp Data → Option Data
  | .insert _ data => some data
  | .update _ data => some data
  | .delete _ => none

/-- The operation on a tree. -/
def apply (tree : ExtTreeMap Int Data) : RowOp Data → ExtTreeMap Int Data
  | .insert rowid data => tree.insert rowid data
  | .update rowid data => tree.insert rowid data
  | .delete rowid => tree.erase rowid

/-- The operation on what is under a rowid. -/
def at_ (row : Int) (value : Option Data) (op : RowOp Data) : Option Data :=
  if op.rowid = row then op.outcome else value

/-- An operation changes its row only. -/
theorem apply_getElem? (tree : ExtTreeMap Int Data) (op : RowOp Data) (row : Int) :
    (op.apply tree)[row]? = op.at_ row tree[row]? := by
  cases op with
  | insert rowid data | update rowid data => exact ExtTreeMap.getElem?_insert.trans (ite_compare ..)
  | delete rowid => exact ExtTreeMap.getElem?_erase.trans (ite_compare ..)

/-- Operations act on each row alone. -/
theorem foldl_apply_getElem? (ops : List (RowOp Data)) (row : Int) :
    ∀ tree : ExtTreeMap Int Data,
      (ops.foldl (fun tree op => op.apply tree) tree)[row]? =
        ops.foldl (RowOp.at_ row) tree[row]? := by
  induction ops with
  | nil => exact fun _ => rfl
  | cons op rest ih =>
    intro tree
    rw [List.foldl_cons, ih, apply_getElem?, List.foldl_cons]

/-- Of certain rows, the operations on one are all or none. -/
theorem foldl_at_filter {p : Int → Bool} (ops : List (RowOp Data)) (value : Option Data) :
    (ops.filter fun op => p op.rowid).foldl (RowOp.at_ row) value =
      if p row then ops.foldl (RowOp.at_ row) value else value := by
  induction ops generalizing value with
  | nil => exact (ite_self value).symm
  | cons op rest ih =>
    rw [List.filter_cons, List.foldl_cons]
    by_cases same : op.rowid = row
    · rw [same]
      by_cases chosen : p row = true
      · rw [if_pos chosen, if_pos chosen, List.foldl_cons, ih, if_pos chosen]
      · rw [if_neg chosen, if_neg chosen, ih, if_neg chosen]
    · have here : op.at_ row value = value := if_neg same
      rw [here, ← ih]
      split_ifs
      · rw [List.foldl_cons, here]
      · rfl

end RowOp

section View

variable {pending : Pending Int Data compare} {shared : ExtTreeMap Int Data} {rowid : Int}

/-- What is under a row after it is inserted or updated. -/
theorem Pending.view_insert (isUpdate : Bool) (data : Data) :
    (pending.insert isUpdate rowid data).view shared row =
      if rowid = row then some data else pending.view shared row := by
  have ins : (pending.insert isUpdate rowid data).ins[row]? =
      if rowid = row then some data else pending.ins[row]? :=
    ExtTreeMap.getElem?_insert.trans (ite_compare ..)
  unfold Pending.view
  rw [ins]
  by_cases same : rowid = row
  · rw [if_pos same, if_pos same]
    rfl
  · have del : row ∈ (pending.insert isUpdate rowid data).del ↔ row ∈ pending.del := by
      rw [Pending.mem_insert_del, Std.compare_eq_iff_eq]
      exact or_iff_right fun both => same both.2
    rw [if_neg same, if_neg same]
    simp only [del]

/-- What is under a row after it is taken back. -/
theorem Pending.view_takeBack (hidden : rowid ∈ shared → rowid ∈ pending.del) :
    (pending.takeBack rowid).view shared row =
      if rowid = row then none else pending.view shared row := by
  have ins : (pending.takeBack rowid).ins[row]? =
      if rowid = row then none else pending.ins[row]? :=
    ExtTreeMap.getElem?_erase.trans (ite_compare ..)
  unfold Pending.view
  rw [ins]
  by_cases same : rowid = row
  · rw [if_pos same, if_pos same, Option.none_or, ← same]
    split_ifs with deleted
    · rfl
    · exact ExtTreeMap.getElem?_eq_none fun inside => deleted (hidden inside)
  · rw [if_neg same, if_neg same]
    rfl

/-- A deleted row is not seen. -/
theorem Pending.view_delete (apart : rowid ∉ pending.ins) :
    (pending.delete rowid).view shared row =
      if rowid = row then none else pending.view shared row := by
  unfold Pending.view
  by_cases same : rowid = row
  · have ins : (pending.delete rowid).ins[row]? = none :=
      ExtTreeMap.getElem?_eq_none (same ▸ apart)
    have del : row ∈ (pending.delete rowid).del :=
      Pending.mem_delete_del.2 (Or.inl (Std.compare_eq_iff_eq.2 same))
    rw [if_pos same, ins, if_pos del]
    rfl
  · have del : row ∈ (pending.delete rowid).del ↔ row ∈ pending.del := by
      rw [Pending.mem_delete_del, Std.compare_eq_iff_eq]
      exact or_iff_right same
    rw [if_neg same]
    simp only [del]
    rfl

/-- What is under a row that the transaction has not written. -/
theorem Pending.view_unwritten (unwritten : ¬ pending.Writes row) :
    pending.view shared row = shared[row]? := by
  unfold Pending.view
  rw [ExtTreeMap.getElem?_eq_none fun inserted => unwritten (Or.inl inserted),
    if_neg fun deleted => unwritten (Or.inr deleted), Option.none_or]

/-- The deletions of a replay succeed. -/
theorem commitDeleteLoop_ok {del : List Int} :
    ∀ {round : Nat} {shared : ExtTreeMap Int Data} {result : Rc × ExtTreeMap Int Data},
      Commit.commitDeleteLoop (fun _ => none) round del shared = .returns result →
      result.1 = .ok := by
  induction del with
  | nil =>
    intro round shared result returns
    injection returns with same
    rw [← same]
    rfl
  | cons key rest ih =>
    intro round shared result returns
    unfold Commit.commitDeleteLoop at returns
    split_ifs at returns
    · exact ih returns

/-- So do its insertions. -/
theorem transBtreeCommitTableInsert_ok {ins : List (Int × Data)} :
    ∀ {round : Nat} {shared : ExtTreeMap Int Data},
      (Commit.transBtreeCommitTableInsert (fun _ => none) round ins shared).1 = .ok := by
  induction ins with
  | nil => exact rfl
  | cons row rest ih => exact ih

/-- The replay of a transaction leaves what it sees. -/
theorem Pending.replay_view (present : ∀ row ∈ pending.del, row ∈ shared) (row : Int) :
    (pending.replay shared)[row]? = pending.view shared row := by
  obtain ⟨deleted, returns, content⟩ : ∃ result,
      Commit.commitDeleteLoop (fun _ => none) 0 pending.del.keys shared = .returns result ∧
        (result.1 = .ok → ∀ key, result.2[key]? =
          if ∃ deleted ∈ pending.del.keys, compare deleted key = .eq then none
          else shared[key]?) :=
    Commit.commitDeleteLoop_spec (fun _ => none) ExtTreeMap.ordered_keys
      fun key member => present key (mem_keys.1 member)
  have gone : (∃ deleted ∈ pending.del.keys, compare deleted row = .eq) ↔ row ∈ pending.del := by
    constructor
    · rintro ⟨key, member, same⟩
      rw [← Std.compare_eq_iff_eq.1 same]
      exact mem_keys.1 member
    · exact fun member => ⟨row, mem_keys.2 member, Std.compare_eq_iff_eq.2 rfl⟩
  have found : (pending.ins.toList.find? fun entry => compare entry.1 row == .eq).map Prod.snd =
      pending.ins[row]? := by
    cases search : pending.ins.toList.find? fun entry => compare entry.1 row == .eq with
    | none =>
      have absent := ExtTreeMap.find?_toList_eq_none_iff_contains_eq_false.1 search
      rw [Option.map_none, ExtTreeMap.getElem?_eq_none_of_contains_eq_false absent]
    | some entry =>
      have present := ExtTreeMap.find?_toList_eq_some_iff_getKey?_eq_some_and_getElem?_eq_some.1
        (search : _ = some (entry.1, entry.2))
      rw [Option.map_some, present.2]
  unfold Pending.replay Pending.view
  rw [returns]
  rw [Commit.transBtreeCommitTableInsert_spec _ ExtTreeMap.ordered_keys_toList
    transBtreeCommitTableInsert_ok, content (commitDeleteLoop_ok returns), found]
  simp only [gone]

end View

/-- What a connection sees of a table. -/
def System.view (s : System layout Data) (conn : Conn) (t : RootPage) (row : Int) : Option Data :=
  ((s.trans conn).trees.tables t).view (s.tables t) row

/-- How an insertion is called. -/
structure InsertFlags where
  append : Bool
  shared : Bool
  generated : Bool

/-- The call of an operation, if it applies to what the connection sees: an insertion to a row it
does not see, the others to one that it sees. The cursor stands in the insertion tree if that has
the row. -/
def RowOp.call (s : System layout Data) (conn : Conn) (t : RootPage) (flags : InsertFlags) :
    RowOp Data → Option (Action Record Data)
  | .insert rowid data =>
    if (s.view conn t rowid).isNone then
      some (.insertTable conn t flags.append flags.shared flags.generated rowid data)
    else none
  | .update rowid data =>
    if (s.view conn t rowid).isSome then
      some (.insertTable conn t false (!((s.trans conn).trees.tables t).ins.contains rowid) false
        rowid data)
    else none
  | .delete rowid =>
    if (s.view conn t rowid).isSome then
      some (.deleteTable conn t (((s.trans conn).trees.tables t).ins.contains rowid) rowid)
    else none

/-- A system with the operations of the open transactions, and those of the committed ones in the
order of the commits. -/
structure Traced (layout : Layout Record) (Data : Type) where
  s : System layout Data
  pending : Conn → List (RowOp Data)
  committed : List (RowOp Data)
  /-- Those on rows that their transaction had in a tree at its commit. -/
  lasting : List (RowOp Data)

/-- A step on the rows of one table. -/
inductive RowAction (Data : Type) where
  | operate (conn : Conn) (op : RowOp Data) (flags : InsertFlags)
  | commit (conn : Conn)
  | rollback (conn : Conn)

/-- The traced system before the first transaction. -/
def Traced.init (tables : RootPage → ExtTreeMap Int Data)
    (indexes : (t : RootPage) → ExtTreeMap Record Unit (layout.cmp t)) : Traced layout Data :=
  ⟨.init tables indexes, fun _ => [], [], []⟩

/-- An operation that does not apply is not called, and one that is refused is not recorded. -/
def tracedStep (t : RootPage) (traced : Traced layout Data) : RowAction Data → Traced layout Data
  | .operate conn op flags =>
    match op.call traced.s conn t flags with
    | none => traced
    | some call =>
      let result := call.perform traced.s
      { traced with
        s := result.2
        pending := if result.1 = .ok then
            update traced.pending conn (traced.pending conn ++ [op])
          else traced.pending }
  | .commit conn =>
    ⟨step traced.s (.commit conn), update traced.pending conn [],
      traced.committed ++ traced.pending conn,
      traced.lasting ++ (traced.pending conn).filter fun op =>
        decide ((traced.s.trans conn).trees.WritesRow t op.rowid)⟩
  | .rollback conn =>
    { traced with
      s := step traced.s (.rollback conn)
      pending := update traced.pending conn [] }

/-- A successful operation on the trees of its table. -/
inductive TreeStep (shared : ExtTreeMap Int Data) (op : RowOp Data) :
    Pending Int Data compare → Pending Int Data compare → Prop
  /-- The row is written; one of the shared tree is deleted. -/
  | written (pending : Pending Int Data compare) (isUpdate : Bool) (data : Data)
      (outcome : op.outcome = some data) (found : isUpdate = true → op.rowid ∈ shared)
      (hidden : op.rowid ∈ shared → op.rowid ∈ pending.del ∨ isUpdate = true) :
      TreeStep shared op pending (pending.insert isUpdate op.rowid data)
  | takenBack (pending : Pending Int Data compare) (outcome : op.outcome = none)
      (inserted : op.rowid ∈ pending.ins) : TreeStep shared op pending (pending.takeBack op.rowid)
  | deleted (pending : Pending Int Data compare) (outcome : op.outcome = none)
      (apart : op.rowid ∉ pending.ins) (found : op.rowid ∈ shared) :
      TreeStep shared op pending (pending.delete op.rowid)

section TreeStep

variable {shared : ExtTreeMap Int Data} {op : RowOp Data} {pending pending' : Pending Int Data compare}

/-- Deleted rows are in the shared tree, and inserted rows of it are deleted. -/
structure Pending.Overlays (pending : Pending Int Data compare) (shared : ExtTreeMap Int Data) :
    Prop where
  del : ∀ row ∈ pending.del, row ∈ shared
  ins : ∀ row ∈ pending.ins, row ∈ shared → row ∈ pending.del

section

variable (step : TreeStep shared op pending pending')

include step

/-- Operations keep the trees over the shared one. -/
theorem TreeStep.overlays (overlays : pending.Overlays shared) : pending'.Overlays shared := by
  cases step with
  | written isUpdate data _ found hidden =>
    refine ⟨fun row deleted => ?_, fun row inserted inside => ?_⟩
    · rcases Pending.mem_insert_del.1 deleted with ⟨update, same⟩ | old
      · rw [← Std.compare_eq_iff_eq.1 same]
        exact found update
      · exact overlays.del row old
    · rw [Pending.mem_insert_del]
      rcases Pending.mem_insert_ins.1 inserted with same | old
      · rw [← Std.compare_eq_iff_eq.1 same] at inside ⊢
        exact (hidden inside).symm.imp_left fun update => ⟨update, Std.compare_eq_iff_eq.2 rfl⟩
      · exact Or.inr (overlays.ins row old inside)
  | takenBack _ _ =>
    exact ⟨overlays.del, fun row inserted inside =>
      overlays.ins row (Pending.mem_takeBack_ins.1 inserted).2 inside⟩
  | deleted _ _ found =>
    refine ⟨fun row deleted => ?_, fun row inserted inside => ?_⟩
    · rcases Pending.mem_delete_del.1 deleted with same | old
      · rw [← Std.compare_eq_iff_eq.1 same]
        exact found
      · exact overlays.del row old
    · exact Pending.mem_delete_del.2 (Or.inr (overlays.ins row inserted inside))

/-- An operation changes what is seen of its row only. -/
theorem TreeStep.view (overlays : pending.Overlays shared) (row : Int) :
    pending'.view shared row = op.at_ row (pending.view shared row) := by
  unfold RowOp.at_
  cases step with
  | written isUpdate data outcome =>
    rw [outcome]
    exact Pending.view_insert isUpdate data
  | takenBack outcome inserted =>
    rw [outcome]
    exact Pending.view_takeBack (overlays.ins op.rowid inserted)
  | deleted outcome apart =>
    rw [outcome]
    exact Pending.view_delete apart

/-- An operation writes no other row. -/
theorem TreeStep.writes (other : op.rowid ≠ row) (writes : pending'.Writes row) :
    pending.Writes row := by
  have differs : compare op.rowid row ≠ .eq := fun same => other (Std.compare_eq_iff_eq.1 same)
  cases step with
  | written isUpdate data =>
    refine writes.imp (fun inserted => ?_) fun deleted => ?_
    · exact (Pending.mem_insert_ins.1 inserted).resolve_left differs
    · exact (Pending.mem_insert_del.1 deleted).resolve_left fun both => differs both.2
  | takenBack => exact writes.imp_left fun inserted => (Pending.mem_takeBack_ins.1 inserted).2
  | deleted =>
    exact writes.imp_right fun deleted => (Pending.mem_delete_del.1 deleted).resolve_left differs

end

end TreeStep

section Calls

variable {rowid : Int} {op : RowOp Data} {flags : InsertFlags} {call : Action Record Data}

/-- A call that writes a row does so or nothing. -/
theorem afterLock_written {trees : Trees layout Data} {refusal : Rc → Rc}
    (refuses : ∀ rc, rc ≠ .ok → refusal rc ≠ .ok) :
    let result := s.afterLock conn (s.lockRow conn t rowid) (.record t rowid) trees refusal
    (result.1 ≠ .ok ∧ result.2 = s) ∨ result.1 = .ok ∧ result.2.tables = s.tables ∧
      (result.2.trans conn).trees = trees ∧
      (result.2.trans conn).saved = (s.trans conn).saved := by
  rcases s.afterLock_cases conn (s.lockRow conn t rowid) (.record t rowid) trees refusal
    with ⟨-, eq⟩ | ⟨-, eq⟩ | ⟨refused, -, eq⟩
  · rw [eq]
    dsimp only
    rw [System.setTrans_self]
    exact Or.inr ⟨rfl, rfl, rfl, rfl⟩
  · rw [eq]
    dsimp only
    rw [System.setTrans_self]
    exact Or.inr ⟨rfl, rfl, rfl, rfl⟩
  · rw [eq]
    exact Or.inl ⟨refuses _ refused, rfl⟩

/-- A refusal stays one. -/
theorem rowRefusal_ne (generated : Bool) (rc : Rc) (refused : rc ≠ .ok) :
    rowRefusal generated rc ≠ .ok := by
  cases rc with
  | ok => exact absurd rfl refused
  | locked => cases generated <;> exact nofun
  | _ => exact nofun

/-- What the call of an operation does. -/
structure Operated (op : RowOp Data) (conn : Conn) (t : RootPage) (s s' : System layout Data) :
    Prop where
  tables : s'.tables = s.tables
  trees : TreeStep (s.tables t) op ((s.trans conn).trees.tables t) ((s'.trans conn).trees.tables t)
  saved : (s'.trans conn).saved = (s.trans conn).saved

/-- An insertion does nothing or what it says. -/
theorem insertTable_operated {append shared generated : Bool} {data : Data} (row : op.rowid = rowid)
    (outcome : op.outcome = some data)
    (hidden : rowid ∈ s.tables t → rowid ∈ ((s.trans conn).trees.tables t).del ∨
      (!append && shared) = true) :
    let result := s.sqlite3TransBtreeInsertTable conn t append shared generated rowid data
    (result.1 ≠ .ok ∧ result.2 = s) ∨ result.1 = .ok ∧ Operated op conn t s result.2 := by
  subst row
  unfold System.sqlite3TransBtreeInsertTable
  refine (afterLock_written (rowRefusal_ne generated)).imp_right ?_
  rintro ⟨ok, tables, trees, saved⟩
  refine ⟨ok, tables, ?_, saved⟩
  rw [trees, Trees.setTable_tables, if_pos rfl]
  refine .written _ _ data outcome (fun update => ?_) (fun inside => ?_)
  · exact contains_iff_mem.1 (Bool.and_eq_true_iff.1 update).2
  · exact (hidden inside).imp_right fun flags =>
      Bool.and_eq_true_iff.2 ⟨flags, contains_iff_mem.2 inside⟩

/-- A row that is not seen is deleted or absent. -/
theorem hidden_of_unseen (unseen : s.view conn t row = none) (inside : row ∈ s.tables t) :
    row ∈ ((s.trans conn).trees.tables t).del := by
  by_contra kept
  unfold System.view Pending.view at unseen
  rw [if_neg kept, Option.or_eq_none_iff] at unseen
  have present := mem_iff_isSome_getElem?.1 inside
  rw [unseen.2] at present
  cases present

/-- A row that is seen and not inserted is in the shared tree. -/
theorem shared_of_seen (seen : (s.view conn t row).isSome = true)
    (apart : row ∉ ((s.trans conn).trees.tables t).ins) : row ∈ s.tables t := by
  by_contra outside
  unfold System.view Pending.view at seen
  rw [ExtTreeMap.getElem?_eq_none apart, ExtTreeMap.getElem?_eq_none outside, ite_self] at seen
  cases seen

/-- An operation does nothing or what it says. -/
theorem RowOp.call_operated (overlays : ((s.trans conn).trees.tables t).Overlays (s.tables t))
    (called : op.call s conn t flags = some call) :
    call.conn = conn ∧ (((call.perform s).1 ≠ .ok ∧ (call.perform s).2 = s) ∨
      (call.perform s).1 = .ok ∧ Operated op conn t s (call.perform s).2) := by
  unfold RowOp.call at called
  cases op with
  | insert rowid data =>
    dsimp only at called
    split_ifs at called with unseen
    cases called
    refine ⟨rfl, insertTable_operated rfl rfl fun inside => Or.inl ?_⟩
    exact hidden_of_unseen (Option.isNone_iff_eq_none.1 unseen) inside
  | update rowid data =>
    dsimp only at called
    split_ifs at called with seen
    cases called
    refine ⟨rfl, insertTable_operated rfl rfl fun inside => ?_⟩
    by_cases inserted : rowid ∈ ((s.trans conn).trees.tables t).ins
    · exact Or.inl (overlays.ins rowid inserted inside)
    · have contains : ((s.trans conn).trees.tables t).ins.contains rowid = false :=
        Bool.eq_false_iff.2 fun yes => inserted (contains_iff_mem.1 yes)
      rw [contains]
      exact Or.inr rfl
  | delete rowid =>
    dsimp only at called
    split_ifs at called with seen
    cases called
    refine ⟨rfl, ?_⟩
    by_cases inserted : rowid ∈ ((s.trans conn).trees.tables t).ins
    · have contains := contains_iff_mem.2 inserted
      unfold Action.perform System.sqlite3TransBtreeDeleteTable
      simp only [contains, if_true]
      refine Or.inr ⟨trivial, rfl, ?_, ?_⟩
      · rw [System.setTrans_self, Trees.setTable_tables, if_pos rfl]
        exact .takenBack _ rfl inserted
      · rw [System.setTrans_self]
    · have contains : ((s.trans conn).trees.tables t).ins.contains rowid = false :=
        Bool.eq_false_iff.2 fun yes => inserted (contains_iff_mem.1 yes)
      have found := shared_of_seen seen inserted
      unfold Action.perform System.sqlite3TransBtreeDeleteTable
      simp only [contains, Bool.false_eq_true, if_false, contains_iff_mem.2 found, if_true]
      have refuses : ∀ rc : Rc, rc ≠ .ok → id rc ≠ .ok := fun _ refused => refused
      refine (afterLock_written refuses).imp_right ?_
      rintro ⟨ok, tables, trees, saved⟩
      refine ⟨ok, tables, ?_, saved⟩
      rw [trees, Trees.setTable_tables, if_pos rfl]
      exact .deleted _ rfl inserted found

end Calls

/-- A successful operation on what connections see. -/
theorem Operated.views {op : RowOp Data} {call : Action Record Data}
    (operated : Operated op conn t s (step s call)) (mine : call.conn = conn)
    (overlays : ((s.trans conn).trees.tables t).Overlays (s.tables t)) :
    (∀ row, (step s call).view conn t row = op.at_ row (s.view conn t row)) ∧
      ∀ other, other ≠ conn → ∀ row, (step s call).view other t row = s.view other t row := by
  unfold System.view
  rw [operated.tables]
  refine ⟨fun row => operated.trees.view overlays row, fun other apart row => ?_⟩
  rw [step_others s call (mine ▸ apart)]

/-- What holds of a traced system in every run. -/
structure Traced.Sound (t : RootPage) (start : ExtTreeMap Int Data) (traced : Traced layout Data) :
    Prop where
  aligned : traced.s.Aligned
  plain : ∀ conn, (traced.s.trans conn).saved = []
  overlays : ∀ conn, ((traced.s.trans conn).trees.tables t).Overlays (traced.s.tables t)
  locked : ∀ conn, RowsLocked traced.s conn
  /-- Of a written row a connection sees what its operations make of it. -/
  views : ∀ conn row, (traced.s.trans conn).trees.WritesRow t row → ∀ value,
    traced.s.view conn t row = (traced.pending conn).foldl (RowOp.at_ row) value
  shared : traced.s.tables t = traced.lasting.foldl (fun tree op => op.apply tree) start

section Sound

variable {traced : Traced layout Data} {action : Action Record Data} {start : ExtTreeMap Int Data}

/-- Membership is what a lookup finds. -/
theorem mem_of_getElem?_eq {tree tree' : ExtTreeMap Int Data} (same : tree[row]? = tree'[row]?) :
    row ∈ tree ↔ row ∈ tree' := by
  rw [mem_iff_isSome_getElem?, mem_iff_isSome_getElem?, same]

/-- A commit ends the transaction. -/
theorem commit_idle : ((step s (.commit conn)).trans conn) = .idle := System.setTrans_self

/-- So does a rollback. -/
theorem rollback_idle : ((step s (.rollback conn)).trans conn) = .idle := System.setTrans_self

/-- A commit leaves what the connection sees. -/
theorem commit_tables (overlays : ((s.trans conn).trees.tables t).Overlays (s.tables t)) (row : Int) :
    ((step s (.commit conn)).tables t)[row]? = s.view conn t row :=
  Pending.replay_view overlays.del row

/-- An operation does nothing, or it succeeds and is recorded. -/
theorem tracedStep_operate (overlays : ((traced.s.trans conn).trees.tables t).Overlays
      (traced.s.tables t)) (op : RowOp Data) (flags : InsertFlags) :
    tracedStep t traced (.operate conn op flags) = traced ∨
      ∃ call, op.call traced.s conn t flags = some call ∧ call.conn = conn ∧
        Operated op conn t traced.s (step traced.s call) ∧
        tracedStep t traced (.operate conn op flags) = { traced with
          s := step traced.s call
          pending := update traced.pending conn (traced.pending conn ++ [op]) } := by
  unfold tracedStep
  dsimp only
  cases called : op.call traced.s conn t flags with
  | none => exact Or.inl rfl
  | some call =>
    obtain ⟨mine, ⟨refused, same⟩ | ⟨ok, operated⟩⟩ := RowOp.call_operated overlays called
    · dsimp only
      rw [if_neg refused, same]
      exact Or.inl rfl
    · dsimp only
      rw [if_pos ok]
      exact Or.inr ⟨call, rfl, mine, operated, rfl⟩

/-- The traced system is sound before the first transaction. -/
theorem Traced.init_sound (tables : RootPage → ExtTreeMap Int Data)
    (indexes : (t : RootPage) → ExtTreeMap Record Unit (layout.cmp t)) (t : RootPage) :
    (Traced.init tables indexes).Sound t (tables t) := by
  refine ⟨init_aligned tables indexes, fun _ => rfl, fun conn => ⟨?_, ?_⟩, fun conn => ⟨?_, .nil⟩,
    fun conn row writes => absurd writes (idle_writes_no_row t row), rfl⟩
  · exact fun row deleted => absurd deleted not_mem_empty
  · exact fun row inserted => absurd inserted not_mem_empty
  · exact fun t row writes => absurd writes (idle_writes_no_row t row)

variable (sound : traced.Sound t start)

include sound

/-- Locks and histories after a step. -/
theorem Traced.Sound.step_locks (action : Action Record Data)
    (plain : ((step traced.s action).trans action.conn).saved = []) :
    (step traced.s action).Aligned ∧
    (∀ conn, ((step traced.s action).trans conn).saved = []) ∧
    ∀ conn, RowsLocked (step traced.s action) conn := by
  refine ⟨step_aligned action sound.aligned, fun conn => ?_,
    rowsLocked_step action sound.aligned sound.plain sound.locked⟩
  by_cases mine : conn = action.conn
  · rw [mine]
    exact plain
  · rw [step_others traced.s action mine]
    exact sound.plain conn

/-- A call that is answered `SQLITE_OK`. -/
theorem Traced.Sound.operated {op : RowOp Data} {call : Action Record Data}
    (operated : Operated op conn t traced.s (step traced.s call))
    (mine : call.conn = conn) :
    Traced.Sound t start { traced with
      s := step traced.s call
      pending := update traced.pending conn (traced.pending conn ++ [op]) } := by
  subst mine
  obtain ⟨aligned, plain, locked⟩ := sound.step_locks call (operated.saved.trans (sound.plain _))
  obtain ⟨own, others⟩ := operated.views rfl (sound.overlays _)
  refine ⟨aligned, plain, fun conn => ?_, locked, fun conn row writes value => ?_, ?_⟩
  · dsimp only
    rw [operated.tables]
    by_cases mine : conn = call.conn
    · rw [mine]
      exact operated.trees.overlays (sound.overlays _)
    · rw [step_others traced.s call mine]
      exact sound.overlays conn
  · dsimp only at writes ⊢
    by_cases mine : conn = call.conn
    · subst mine
      rw [update_self, List.foldl_append, own]
      -- The operation decides what its own row is; the others are what they were.
      by_cases here : op.rowid = row
      · exact (if_pos here).trans (if_pos here).symm
      · rw [sound.views _ row (operated.trees.writes here writes) value]
        rfl
    · rw [step_others traced.s call mine] at writes
      rw [update_of_ne mine, others conn mine]
      exact sound.views conn row writes value
  · dsimp only
    rw [operated.tables]
    exact sound.shared

/-- The rows of different connections are apart. -/
theorem Traced.Sound.apart {other : Conn} (differ : conn ≠ other)
    (mine : (traced.s.trans conn).trees.WritesRow t row) :
    ¬ (traced.s.trans other).trees.WritesRow t row := by
  intro others
  have held := (sound.locked conn).now t row mine
  have held' := (sound.locked other).now t row others
  exact differ (Subtype.ext (Option.some.inj (held.symm.trans held')))

/-- The end of a transaction that changes only its rows. -/
theorem Traced.Sound.finished {committed lasting : List (RowOp Data)}
    (idle : (step traced.s action).trans action.conn = .idle)
    (kept : ∀ row, ¬ (traced.s.trans action.conn).trees.WritesRow t row →
      ((step traced.s action).tables t)[row]? = (traced.s.tables t)[row]?)
    (shared : (step traced.s action).tables t =
      lasting.foldl (fun tree op => op.apply tree) start) :
    Traced.Sound t start ⟨step traced.s action, update traced.pending action.conn [],
      committed, lasting⟩ := by
  have plain' : ((step traced.s action).trans action.conn).saved = [] := by
    rw [idle]
    rfl
  obtain ⟨aligned, plain, locked⟩ := sound.step_locks action plain'
  -- The rows that another connection has written are what they were.
  have same : ∀ conn, conn ≠ action.conn → ∀ row, (traced.s.trans conn).trees.WritesRow t row →
      ((step traced.s action).tables t)[row]? = (traced.s.tables t)[row]? :=
    fun conn other row writes => kept row (sound.apart other writes)
  refine ⟨aligned, plain, fun conn => ?_, locked, fun conn row writes value => ?_, shared⟩
  · dsimp only
    by_cases mine : conn = action.conn
    · rw [mine, idle]
      exact ⟨fun row deleted => absurd deleted not_mem_empty,
        fun row inserted => absurd inserted not_mem_empty⟩
    · rw [step_others traced.s action mine]
      have overlays := sound.overlays conn
      have there := fun row writes => mem_of_getElem?_eq (same conn mine row writes)
      exact ⟨fun row deleted => (there row (Or.inr deleted)).2 (overlays.del row deleted),
        fun row inserted inside =>
          overlays.ins row inserted ((there row (Or.inl inserted)).1 inside)⟩
  · dsimp only at writes ⊢
    by_cases mine : conn = action.conn
    · rw [mine, idle] at writes
      exact absurd writes (idle_writes_no_row t row)
    · rw [step_others traced.s action mine] at writes
      rw [update_of_ne mine, ← sound.views conn row writes value]
      unfold System.view Pending.view
      rw [step_others traced.s action mine, same conn mine row writes]

/-- A commit applies the operations that last. -/
theorem Traced.Sound.commit_shared (conn : Conn) :
    (step traced.s (.commit conn)).tables t =
      (tracedStep t traced (.commit conn)).lasting.foldl (fun tree op => op.apply tree) start := by
  unfold tracedStep
  rw [List.foldl_append, ← sound.shared]
  apply ExtTreeMap.ext_getElem?
  intro row
  rw [commit_tables (sound.overlays conn), RowOp.foldl_apply_getElem?,
    RowOp.foldl_at_filter (p := fun row => decide ((traced.s.trans conn).trees.WritesRow t row))]
  by_cases writes : (traced.s.trans conn).trees.WritesRow t row
  · rw [if_pos (decide_eq_true writes)]
    exact sound.views conn row writes _
  · rw [if_neg fun yes => writes (of_decide_eq_true yes)]
    exact Pending.view_unwritten writes

/-- What holds in every run is kept by every step. -/
theorem Traced.Sound.step (action : RowAction Data) :
    (tracedStep t traced action).Sound t start := by
  cases action with
  | operate conn op flags =>
    rcases tracedStep_operate (sound.overlays conn) op flags with
      same | ⟨call, -, mine, operated, after⟩
    · rw [same]
      exact sound
    · rw [after]
      exact sound.operated operated mine
  | commit conn =>
    refine sound.finished commit_idle (fun row unwritten => ?_) (sound.commit_shared conn)
    rw [commit_tables (sound.overlays conn)]
    exact Pending.view_unwritten unwritten
  | rollback conn => exact sound.finished rollback_idle (fun row _ => rfl) sound.shared

end Sound

variable (tables : RootPage → ExtTreeMap Int Data)
  (indexes : (t : RootPage) → ExtTreeMap Record Unit (layout.cmp t)) (t : RootPage)

/-- The traced system is sound in every run. -/
theorem Traced.run_sound (actions : List (RowAction Data)) :
    (run (tracedStep t) (.init tables indexes) actions).Sound t (tables t) :=
  run_invariant (P := Traced.Sound t (tables t)) (fun _ action sound => sound.step action) actions
    (Traced.init_sound tables indexes t)

/-- In every run each connection's trees lie over the shared tree, the rows of different connections
are apart, and a successful operation changes what its connection sees as it says and what no other
sees. The shared tree is what the lasting operations of the committed transactions make of it one
after another. -/
theorem rows_in_commit_order (actions : List (RowAction Data)) :
    let traced := run (tracedStep t) (.init tables indexes) actions
    (∀ conn, ((traced.s.trans conn).trees.tables t).Overlays (traced.s.tables t)) ∧
    (∀ conn other, conn ≠ other → ∀ row, (traced.s.trans conn).trees.WritesRow t row →
      ¬ (traced.s.trans other).trees.WritesRow t row) ∧
    (∀ (conn : Conn) (op : RowOp Data) (flags : InsertFlags) (call : Action Record Data),
      op.call traced.s conn t flags = some call → (call.perform traced.s).1 = .ok →
        (∀ row, (step traced.s call).view conn t row = op.at_ row (traced.s.view conn t row)) ∧
        ∀ other, other ≠ conn → ∀ row,
          (step traced.s call).view other t row = traced.s.view other t row) ∧
    traced.s.tables t = traced.lasting.foldl (fun tree op => op.apply tree) (tables t) := by
  have sound := Traced.run_sound tables indexes t actions
  refine ⟨sound.overlays, fun conn other differ row writes => sound.apart differ writes, ?_,
    sound.shared⟩
  intro conn op flags call called ok
  obtain ⟨mine, ⟨refused, -⟩ | ⟨-, operated⟩⟩ := RowOp.call_operated (sound.overlays conn) called
  · exact absurd ok refused
  · exact operated.views mine (sound.overlays conn)

/-- An operation on row 5, as the concrete runs call it. -/
def operateFive (conn : Conn) (op : RowOp Unit) : RowAction Unit :=
  .operate conn op ⟨true, false, false⟩

/-- A inserts row 5 and deletes it, B inserts it and commits, and A commits. The row is in the
shared tree, where the operations in commit order leave none. -/
theorem deletion_committed_before_insertion :
    let traced := run (tracedStep tableTwo)
      (Traced.init (fun _ => ∅) (fun _ => ∅) : Traced smallLayout Unit)
      [operateFive connA (.insert 5 ()), operateFive connA (.delete 5),
        operateFive connB (.insert 5 ()), .commit connB, .commit connA]
    (traced.s.tables tableTwo)[(5 : Int)]? = some () ∧
      (traced.committed.foldl (fun tree op => op.apply tree) ∅)[(5 : Int)]? = none := by
  decide

end SQLumDash.Trans
