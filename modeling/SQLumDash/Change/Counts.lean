import SQLumDash.Change.Rows
import SQLumDash.Lib.Run

/-!
# Counting rows

The sizes of the three trees give the number of rows in the view as long as only shared rows are
deleted and no inserted row shadows a shared one, which every sequence of row operations keeps. The
number that the deletion of all rows reports leaves the deletion tree out.
-/

namespace SQLumDash.Change

open OrderedCursor Scan Runs

section Counting

variable {α Data : Type*} [LinearOrder α] {t : TableTrees α Data} {key : α}

/-- What the sizes of the trees need to add up. After a deletion of all rows the shared tree does
not count. -/
structure TableTrees.Counted (t : TableTrees α Data) : Prop where
  del_subset : t.del ⊆ t.shared
  ins_disjoint : t.deleteAll = false → Disjoint t.ins (t.shared \ t.del)

/-- Trees over the shared one count. -/
theorem TableTrees.Overlaid.counted (overlaid : t.Overlaid) : t.Counted :=
  ⟨overlaid.del_subset, fun _ => overlaid.ins_disjoint⟩

/-- The size of the view from the sizes of the trees. -/
theorem TableTrees.Counted.card_view (counted : t.Counted) :
    (t.view.card : Int) =
      if t.deleteAll then (t.ins.card : Int)
      else (t.shared.card : Int) + t.ins.card - t.del.card := by
  unfold view
  cases flag : t.deleteAll with
  | true => rfl
  | false =>
    have apart : Disjoint (t.shared \ t.del) t.ins := (counted.ins_disjoint flag).symm
    have kept : (t.shared \ t.del).card + t.del.card = t.shared.card :=
      Finset.card_sdiff_add_card_eq_card counted.del_subset
    simp only [Bool.false_eq_true, if_false]
    rw [Finset.card_union_of_disjoint apart]
    omega

/-- An `int` keeps a number that is not too large. -/
theorem toInt_eq_iff (n : Int) (size : Nat) :
    toInt n = size ↔ size < 2 ^ 31 ∧ (2 : Int) ^ 32 ∣ n - size := by
  unfold toInt Int.bmod
  dsimp only
  split_ifs <;> omega

/-- The two conversions of `*pnChange` amount to one. -/
theorem toInt_add_toInt (m n : Int) : toInt (m + toInt n) = toInt (m + n) := by
  exact Int.add_bmod_bmod

/-- The shared rows that the transaction did not see. -/
def TableTrees.hidden (t : TableTrees α Data) : Nat :=
  if t.deleteAll then t.shared.card else t.del.card

/-- The deletion of all rows leaves an empty view, and reports the number of rows there were exactly
when an `int` can hold it and the hidden rows of the shared tree, which are counted too, add up to
nothing in an `int`. -/
theorem clearTable_counts_view_iff (overlaid : t.Overlaid) :
    ((sqlite3TransBtreeClearTable t).1 = t.view.card ∧
      (sqlite3TransBtreeClearTable t).2.view = ∅) ↔
    t.view.card < 2 ^ 31 ∧ 2 ^ 32 ∣ t.hidden := by
  have empty : (sqlite3TransBtreeClearTable t).2.view = ∅ := rfl
  have reported : (sqlite3TransBtreeClearTable t).1 = toInt ((t.shared.card : Int) + t.ins.card) := by
    simp only [sqlite3TransBtreeClearTable, toInt_add_toInt]
  have surplus : (t.shared.card : Int) + t.ins.card - t.view.card = t.hidden := by
    rw [overlaid.counted.card_view, TableTrees.hidden]
    split_ifs <;> omega
  rw [and_iff_left empty, reported, toInt_eq_iff, surplus]
  exact and_congr_right fun _ => by omega

/-- One row, which the transaction has deleted. -/
def oneDeleted : TableTrees Int Unit where
  shared := {1}
  sharedData := fun _ => ()
  ins := ∅
  insData := fun _ => ()
  del := {1}
  deleteAll := false

/-- It lies over the shared tree. -/
theorem oneDeleted_overlaid : oneDeleted.Overlaid := ⟨by decide, by decide⟩

/-- A deleted row is reported as deleted once more. -/
theorem clearTable_counts_deleted :
    oneDeleted.Overlaid ∧ oneDeleted.view = ∅ ∧ (sqlite3TransBtreeClearTable oneDeleted).1 = 1 ∧
      ¬ ((sqlite3TransBtreeClearTable oneDeleted).1 = oneDeleted.view.card ∧
        (sqlite3TransBtreeClearTable oneDeleted).2.view = ∅) :=
  ⟨oneDeleted_overlaid, by decide, by decide, by decide⟩

/-- A table with one shared row and one inserted row. -/
def oneOfEach : TableTrees Int Unit where
  shared := {1}
  sharedData := fun _ => ()
  ins := {2}
  insData := fun _ => ()
  del := ∅
  deleteAll := false

/-- It lies over the shared tree. -/
theorem oneOfEach_overlaid : oneOfEach.Overlaid := ⟨by decide, by decide⟩

/-- A shared and an inserted row are counted. -/
theorem clearTable_counts_both :
    oneOfEach.Overlaid ∧
      (((sqlite3TransBtreeClearTable oneOfEach).1 = oneOfEach.view.card ∧
        (sqlite3TransBtreeClearTable oneOfEach).2.view = ∅) ↔
      oneOfEach.view.card < 2 ^ 31 ∧ 2 ^ 32 ∣ oneOfEach.hidden) :=
  ⟨oneOfEach_overlaid, clearTable_counts_view_iff oneOfEach_overlaid⟩

/-- The insertion replaces a row of the shared tree. -/
def ReplacesShared (t : TableTrees α Data) (c : RowCursor α) (key : α) (append : Bool)
    (seekResult : Int) : Prop :=
  append = false ∧ seekResult = 0 ∧ c.sharedIsUsed = true ∧ key ∈ t.shared

instance (c : RowCursor α) (append : Bool) (seekResult : Int) :
    Decidable (ReplacesShared t c key append seekResult) :=
  inferInstanceAs (Decidable (_ ∧ _ ∧ _ ∧ _))

/-- An insertion deletes the shared row that it replaces. -/
theorem sqlite3TransBtreeInsert_trees (moveto : MovetoUnpacked α) (c : RowCursor α) (data : Data)
    (append : Bool) (seekResult : Int) :
    (sqlite3TransBtreeInsert moveto t c key data append seekResult).1 =
      { t with
        ins := insert key t.ins
        insData := Function.update t.insData key data
        del := if ReplacesShared t c key append seekResult then insert key t.del else t.del } := by
  have found : (Probe.exact key).pRes (moveto.land .shared t.shared (Probe.exact key)) = 0 ↔
      key ∈ t.shared := pRes_exact_eq_zero (moveto.lands .shared t.shared (Probe.exact key))
  unfold sqlite3TransBtreeInsert ReplacesShared
  cases append with
  | true => simp
  | false =>
    by_cases zero : seekResult = 0
    · rcases Bool.eq_false_or_eq_true c.sharedIsUsed with used | used
      · simp [zero, used, found]
      · simp [zero, used]
    · simp [zero]

end Counting

section Runs

variable {α Data : Type} [LinearOrder α] {t : TableTrees α Data} {key : α}

/-- A row operation, with its cursor. -/
inductive RowOp (α Data : Type) where
  /-- `sqlite3TransBtreeInsert` -/
  | insert (c : RowCursor α) (key : α) (data : Data) (append : Bool) (seekResult : Int)
  /-- `sqlite3TransBtreeDelete` -/
  | delete (c : RowCursor α)
  /-- `sqlite3TransBtreeClearTable` -/
  | clear

/-- The trees after an operation. -/
def RowOp.perform (vendored : Vendored α) (t : TableTrees α Data) :
    RowOp α Data → TableTrees α Data
  | insert c key data append seekResult =>
    (sqlite3TransBtreeInsert vendored.toMovetoUnpacked t c key data append seekResult).1
  | delete c => (sqlite3TransBtreeDelete vendored t c).1
  | clear => (sqlite3TransBtreeClearTable t).2

/-- A row is inserted when it is not in the view, and updated or deleted under a cursor that stands
on it. -/
def RowOp.Proper (t : TableTrees α Data) : RowOp α Data → Prop
  | insert c key _ append seekResult =>
    key ∉ t.view ∨ (append = false ∧ seekResult = 0 ∧ c.StandsOn t key)
  | delete c => ∃ key, c.StandsOn t key
  | clear => True

/-- An inserted or updated row does not shadow a shared one. -/
theorem TableTrees.Counted.insert (counted : t.Counted) (moveto : MovetoUnpacked α)
    {c : RowCursor α} {data : Data} {append : Bool} {seekResult : Int}
    (proper : (RowOp.insert c key data append seekResult).Proper t) :
    (sqlite3TransBtreeInsert moveto t c key data append seekResult).1.Counted := by
  rw [sqlite3TransBtreeInsert_trees]
  refine ⟨?_, fun kept => Finset.disjoint_left.2 fun x inserted seen => ?_⟩
  · dsimp only
    split_ifs with replaces
    · exact Finset.insert_subset replaces.2.2.2 counted.del_subset
    · exact counted.del_subset
  · dsimp only at kept inserted seen
    obtain ⟨shared, notDeleted⟩ := Finset.mem_sdiff.1 seen
    have stillSeen : x ∈ t.shared \ t.del := by
      refine Finset.mem_sdiff.2 ⟨shared, fun deleted => notDeleted ?_⟩
      split_ifs
      · exact Finset.mem_insert_of_mem deleted
      · exact deleted
    have notBefore : x ∉ t.ins := fun inside =>
      Finset.disjoint_left.1 (counted.ins_disjoint kept) inside stillSeen
    obtain rfl : x = key := (Finset.mem_insert.1 inserted).resolve_right notBefore
    -- The row is seen in the shared tree, so it is updated there and noted as deleted.
    have inView : x ∈ t.view := by
      simp only [TableTrees.view, kept, Bool.false_eq_true, if_false]
      exact Finset.mem_union_left _ stillSeen
    obtain ⟨noAppend, noSeek, stands⟩ := proper.resolve_left (not_not_intro inView)
    unfold RowCursor.StandsOn at stands
    split_ifs at stands
    · exact notBefore stands.2
    · apply notDeleted
      rw [if_pos (show ReplacesShared t c x append seekResult from
        ⟨noAppend, noSeek, stands.1, shared⟩)]
      exact Finset.mem_insert_self x t.del

/-- A deleted row was inserted, or is a shared one. -/
theorem TableTrees.Counted.delete (counted : t.Counted) (vendored : Vendored α) {c : RowCursor α}
    (stands : c.StandsOn t key) : (sqlite3TransBtreeDelete vendored t c).1.Counted := by
  unfold RowCursor.StandsOn at stands
  unfold sqlite3TransBtreeDelete
  split_ifs at stands ⊢
  · rw [stands.1]
    refine ⟨counted.del_subset, fun kept => ?_⟩
    exact (counted.ins_disjoint kept).mono_left (Finset.erase_subset _ _)
  · obtain ⟨-, there, live⟩ := stands
    rw [there]
    have shared : key ∈ t.shared := by
      unfold TableTrees.live at live
      split_ifs at live
      · exact absurd live (Finset.notMem_empty key)
      · exact (Finset.mem_sdiff.1 live).1
    refine ⟨Finset.insert_subset shared counted.del_subset, fun kept => ?_⟩
    exact (counted.ins_disjoint kept).mono_right
      (Finset.sdiff_subset_sdiff le_rfl (Finset.subset_insert _ _))

/-- Every operation keeps what the counting needs. -/
theorem RowOp.Proper.counted {vendored : Vendored α} {op : RowOp α Data} (counted : t.Counted)
    (proper : op.Proper t) : (op.perform vendored t).Counted := by
  cases op with
  | insert c key data append seekResult => exact counted.insert vendored.toMovetoUnpacked proper
  | delete c =>
    obtain ⟨key, stands⟩ := proper
    exact counted.delete vendored stands
  | clear => exact ⟨counted.del_subset, fun kept => nomatch kept⟩

/-- The trees of an untouched table. -/
def TableTrees.untouched (shared : Finset α) (sharedData insData : α → Data) :
    TableTrees α Data where
  shared := shared
  sharedData := sharedData
  ins := ∅
  insData := insData
  del := ∅
  deleteAll := false

/-- After any sequence of row operations of a transaction, `COUNT(*)` returns the number of rows in
the view. A cursor that was opened without the transaction's trees counts before the first one. -/
theorem countAll_eq_view (vendored : Vendored α) (shared : Finset α) (sharedData insData : α → Data)
    (ops : List (RowOp α Data))
    (proper : Guarded (RowOp.perform vendored) RowOp.Proper
      (.untouched shared sharedData insData) ops)
    (c : RowCursor α) (opened : transBtreeCursorIsUsed c = true ∨ ops = []) :
    let t := run (RowOp.perform vendored) (.untouched shared sharedData insData) ops
    sqlite3BtreeCountAll t c =
      if t.deleteAll then (t.ins.card : Int) else (((t.shared \ t.del) ∪ t.ins).card : Int) := by
  intro t
  have start : (TableTrees.untouched shared sharedData insData).Counted :=
    ⟨Finset.empty_subset _, fun _ => Finset.disjoint_empty_left _⟩
  have counted : t.Counted :=
    proper.invariant (P := TableTrees.Counted) (fun s op holds => RowOp.Proper.counted holds) start
  have size : (t.view.card : Int) =
      if t.deleteAll then (t.ins.card : Int) else (((t.shared \ t.del) ∪ t.ins).card : Int) := by
    unfold TableTrees.view
    split_ifs <;> rfl
  rw [← size, counted.card_view, sqlite3BtreeCountAll]
  cases used : transBtreeCursorIsUsed c with
  | true => rfl
  | false =>
    obtain rfl : ops = [] := opened.resolve_left (by simp [used])
    simp [t, run, TableTrees.untouched]

/-- A cursor on a row of the shared tree. -/
def onShared (key : Int) : RowCursor Int where
  pCur := some key
  pCurIns := .invalid
  pCurDel := none
  sharedIsUsed := true
  transIsUsed := false

/-- A row is inserted, another updated and a third deleted; then all rows are deleted and a shared
key is inserted again. -/
def mixedOps : List (RowOp Int Unit) :=
  [.insert (onShared 2) 5 () true 0, .insert (onShared 1) 1 () false 0, .delete (onShared 2),
    .clear, .insert (onShared 2) 2 () true 0]

/-- The count after these operations. -/
theorem countAll_after_mixedOps :
    Guarded (RowOp.perform .lost) RowOp.Proper (.untouched {1, 2} (fun _ => ()) fun _ => ())
      mixedOps ∧
    (transBtreeCursorIsUsed (onShared 1) = true ∨ mixedOps = []) ∧
    let t := run (RowOp.perform .lost) (.untouched {1, 2} (fun _ => ()) fun _ => ()) mixedOps
    sqlite3BtreeCountAll t (onShared 1) =
      if t.deleteAll then (t.ins.card : Int) else (((t.shared \ t.del) ∪ t.ins).card : Int) := by
  have proper : Guarded (RowOp.perform .lost) RowOp.Proper
      (.untouched {1, 2} (fun _ => ()) fun _ => ()) mixedOps := by
    refine ⟨.inl ?_, .inr ⟨rfl, rfl, ?_⟩, ⟨2, ?_⟩, trivial, .inl ?_, trivial⟩ <;> decide
  have opened : transBtreeCursorIsUsed (onShared 1) = true ∨ mixedOps = [] := .inl rfl
  exact ⟨proper, opened, countAll_eq_view .lost _ _ _ _ proper _ opened⟩

end Runs

end SQLumDash.Change
