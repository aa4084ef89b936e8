import SQLumDash.Trans.CommitOrder

/-!
# Isolation

What a connection sees changes by its own operations and by what others commit, and a row that a
transaction has written is kept from the others until it ends.
-/

namespace SQLumDash.Trans

open Runs Std

variable {Record Data : Type} {layout : Layout Record}

/-- The connection that takes a step. -/
def RowAction.conn : RowAction Data → Conn
  | .operate conn .. => conn
  | .commit conn => conn
  | .rollback conn => conn

variable {traced : Traced layout Data} {start : ExtTreeMap Int Data} {t : RootPage} {conn : Conn}
  {row : Int}

/-- A step leaves other transactions alone. -/
theorem Traced.Sound.others (sound : traced.Sound t start) (action : RowAction Data)
    (apart : conn ≠ action.conn) :
    (tracedStep t traced action).s.trans conn = traced.s.trans conn := by
  cases action with
  | operate other op flags =>
    rcases tracedStep_operate (sound.overlays other) op flags with same | ⟨call, -, mine, -, after⟩
    · rw [same]
    · rw [after]
      exact step_others _ call (mine ▸ apart)
  | commit other => exact step_others traced.s (.commit other) apart
  | rollback other => exact step_others traced.s (.rollback other) apart

/-- Only a commit changes the shared tree, where it has written. -/
theorem Traced.Sound.shared_row (sound : traced.Sound t start) (action : RowAction Data)
    (unwritten : ∀ other, action = .commit other → ¬ (traced.s.trans other).trees.WritesRow t row) :
    ((tracedStep t traced action).s.tables t)[row]? = (traced.s.tables t)[row]? := by
  cases action with
  | operate other op flags =>
    rcases tracedStep_operate (sound.overlays other) op flags with same | ⟨call, -, -, operated, after⟩
    · rw [same]
    · rw [after]
      exact congrArg (fun tables => (tables t)[row]?) operated.tables
  | commit other =>
    exact (commit_tables (sound.overlays other) row).trans (Pending.view_unwritten (unwritten other rfl))
  | rollback other => rfl

variable (tables : RootPage → ExtTreeMap Int Data)
  (indexes : (t : RootPage) → ExtTreeMap Record Unit (layout.cmp t)) (t : RootPage)
  (actions : List (RowAction Data))

/-- In every reachable state, what a connection sees of a row stays when another one operates or
rolls back, and when it commits without having written the row. When it commits a row that it has
written, the connection sees from then on what the other one saw. -/
theorem views_are_committed (action : RowAction Data) (conn : Conn) (apart : conn ≠ action.conn)
    (row : Int) :
    let traced := run (tracedStep t) (.init tables indexes) actions
    let after := (tracedStep t traced action).s.view conn t row
    (¬ (action = .commit action.conn ∧ (traced.s.trans action.conn).trees.WritesRow t row) →
      after = traced.s.view conn t row) ∧
    (action = .commit action.conn → (traced.s.trans action.conn).trees.WritesRow t row →
      after = traced.s.view action.conn t row) := by
  have sound := Traced.run_sound tables indexes t actions
  generalize run (tracedStep t) (.init tables indexes) actions = traced at sound
  have others := sound.others action apart
  constructor
  · intro kept
    unfold System.view Pending.view
    rw [others, sound.shared_row action fun other commit writes => kept ?_]
    rw [commit]
    exact ⟨rfl, writes⟩
  · -- The connection has not written the row itself, and sees the shared tree.
    intro commit writes
    have unwritten := sound.apart (Ne.symm apart) writes
    unfold System.view
    rw [others, Pending.view_unwritten unwritten, commit]
    exact commit_tables (sound.overlays action.conn) row

/-- B sees row 5 once A, who inserted it, has committed. -/
theorem views_are_committed_insert :
    connB ≠ connA ∧
    let traced := run (tracedStep tableTwo)
      (.init (fun _ => ∅) (fun _ => ∅) : Traced smallLayout Unit) [operateFive connA (.insert 5 ())]
    (traced.s.trans connA).trees.WritesRow tableTwo 5 ∧
      traced.s.view connB tableTwo 5 = none ∧ traced.s.view connA tableTwo 5 = some () ∧
      (tracedStep tableTwo traced (.commit connA)).s.view connB tableTwo 5 =
        traced.s.view connA tableTwo 5 := by
  have apart : connB ≠ connA := by decide
  have writes : ((run (tracedStep tableTwo)
      (.init (fun _ => ∅) (fun _ => ∅) : Traced smallLayout Unit)
      [operateFive connA (.insert 5 ())]).s.trans connA).trees.WritesRow tableTwo 5 := by decide
  exact ⟨apart, writes, by decide, by decide,
    (views_are_committed _ _ tableTwo _ (.commit connA) connB apart 5).2 rfl writes⟩

/-- Once a transaction has written a row, then until its next step the others do not write the row,
the row of the shared tree stays, and the transaction sees what it saw. -/
theorem written_row_stays (later : List (RowAction Data)) (conn : Conn) (row : Int)
    (writes : ((run (tracedStep t) (.init tables indexes) actions).s.trans conn).trees.WritesRow t row)
    (apart : ∀ action ∈ later, conn ≠ action.conn) :
    let before := run (tracedStep t) (.init tables indexes) actions
    let after := run (tracedStep t) before later
    (∀ other, conn ≠ other → ¬ (after.s.trans other).trees.WritesRow t row) ∧
      (after.s.tables t)[row]? = (before.s.tables t)[row]? ∧
      after.s.view conn t row = before.s.view conn t row := by
  have sound := Traced.run_sound tables indexes t actions
  generalize run (tracedStep t) (.init tables indexes) actions = before at sound writes
  have kept : (run (tracedStep t) before later).Sound t (tables t) ∧
      (run (tracedStep t) before later).s.trans conn = before.s.trans conn ∧
      ((run (tracedStep t) before later).s.tables t)[row]? = (before.s.tables t)[row]? := by
    -- One step of another connection keeps the transaction and the row; then the run does.
    induction later generalizing before with
    | nil => exact ⟨sound, rfl, rfl⟩
    | cons action rest ih =>
      have here := apart action List.mem_cons_self
      have trans := sound.others action here
      have same : ((tracedStep t before action).s.tables t)[row]? = (before.s.tables t)[row]? := by
        refine sound.shared_row action fun other commit => sound.apart ?_ writes
        rwa [commit] at here
      obtain ⟨sound', trans', same'⟩ := ih (fun each member => apart each (List.mem_cons_of_mem _ member))
        (tracedStep t before action) (sound.step action) (trans ▸ writes)
      exact ⟨sound', trans'.trans trans, same'.trans same⟩
  obtain ⟨sound', trans, same⟩ := kept
  refine ⟨fun other differ => sound'.apart differ (trans ▸ writes), same, ?_⟩
  unfold System.view Pending.view
  rw [trans, same]

/-- B is refused row 5, which A has inserted, and commits. -/
theorem written_row_stays_insert :
    let before := run (tracedStep tableTwo)
      (.init (fun _ => ∅) (fun _ => ∅) : Traced smallLayout Unit) [operateFive connA (.insert 5 ())]
    let after := run (tracedStep tableTwo) before [operateFive connB (.insert 5 ()), .commit connB]
    (before.s.trans connA).trees.WritesRow tableTwo 5 ∧
      after.s.view connA tableTwo 5 = before.s.view connA tableTwo 5 := by
  have writes : ((run (tracedStep tableTwo)
      (.init (fun _ => ∅) (fun _ => ∅) : Traced smallLayout Unit)
      [operateFive connA (.insert 5 ())]).s.trans connA).trees.WritesRow tableTwo 5 :=
    Or.inl (by decide)
  refine ⟨writes, (written_row_stays _ _ tableTwo _ _ connA 5 writes ?_).2.2⟩
  decide

end SQLumDash.Trans
