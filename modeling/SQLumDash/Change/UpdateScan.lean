import SQLumDash.Change.ScanLoop

/-!
# Updating while scanning

The new row goes into the insertion tree, ahead of a scan there. If it was a shared row, the cursor
ends up on it in all three trees and the next advance moves both cursors past it; if an inserted
one, the cursor does not move.
-/

namespace SQLumDash.Change

open OrderedCursor Scan Function

variable {α Data : Type*} [LinearOrder α] {t : TableTrees α Data} {d : Dir} {b : BtCursor α}
  {key : α}

/-- The update of the row under the cursor. -/
def updateRow (moveto : MovetoUnpacked α) (new : α → Data) : RowChange α Data := fun t c key =>
  sqlite3TransBtreeInsert moveto t c key (new key) false 0

/-- A seek for an entry ends on it. -/
theorem land_eq_some (moveto : MovetoUnpacked α) (tree : Tree) {content : Finset α}
    (inside : key ∈ content) : moveto.land tree content (Probe.exact key) = some key := by
  have lands := moveto.lands tree content (Probe.exact key)
  obtain ⟨x, landed, same⟩ := lands.match inside (Probe.exact_eq.2 rfl)
  rw [landed, Probe.exact_eq.1 same]

/-- A seek finds its own key. -/
theorem pRes_self (key : α) : (Probe.exact key).pRes (some key) = 0 := by
  have same : (Probe.exact key).cmp key = .eq := Probe.exact_eq.2 rfl
  simp only [Probe.pRes, same]

namespace TableTrees

/-- A shared row is noted as deleted and written anew. -/
def replaceShared (t : TableTrees α Data) (key : α) (data : Data) : TableTrees α Data :=
  { t with
    ins := insert key t.ins
    insData := update t.insData key data
    del := insert key t.del }

/-- An inserted row is overwritten. -/
def overwriteIns (t : TableTrees α Data) (key : α) (data : Data) : TableTrees α Data :=
  { t with insData := update t.insData key data }

variable {data : Data}

/-- A shared row may be replaced. -/
theorem Overlaid.replaceShared (overlaid : t.Overlaid) (data : Data) (shared : key ∈ t.shared) :
    (t.replaceShared key data).Overlaid := by
  refine ⟨Finset.insert_subset shared overlaid.del_subset, Finset.disjoint_left.2 ?_⟩
  intro x inserted seen
  obtain ⟨inside, notDeleted⟩ := Finset.mem_sdiff.1 seen
  have notDeleted' := not_or.1 (mt Finset.mem_insert.2 notDeleted)
  exact Finset.disjoint_left.1 overlaid.ins_disjoint
    ((Finset.mem_insert.1 inserted).resolve_left notDeleted'.1)
    (Finset.mem_sdiff.2 ⟨inside, notDeleted'.2⟩)

/-- An inserted row may be overwritten. -/
theorem Overlaid.overwriteIns (overlaid : t.Overlaid) (key : α) (data : Data) :
    (t.overwriteIns key data).Overlaid :=
  ⟨overlaid.del_subset, overlaid.ins_disjoint⟩

/-- What comes later stays. -/
theorem agreeAfter_replaceShared : t.AgreeAfter (t.replaceShared key data) d key := by
  refine ⟨rfl, rfl, rfl, fun x later => ?_, fun x later => ?_, fun x later => ?_⟩
  · exact Finset.mem_insert.trans (or_iff_right (Dir.ne later).symm)
  · exact update_of_ne (Dir.ne later).symm _ _
  · exact Finset.mem_insert.trans (or_iff_right (Dir.ne later).symm)

/-- What comes later stays. -/
theorem agreeAfter_overwriteIns : t.AgreeAfter (t.overwriteIns key data) d key :=
  ⟨rfl, rfl, rfl, fun _ _ => Iff.rfl,
    fun _ later => update_of_ne (Dir.ne later).symm _ _, fun _ _ => Iff.rfl⟩

/-- The new data are found. -/
theorem lookup_replaceShared :
    (t.replaceShared key data).lookup = update t.lookup key (some data) := by
  funext x
  by_cases same : x = key
  · subst same
    rw [lookup_ins (Finset.mem_insert_self x t.ins), update_self]
    exact congrArg some (update_self _ _ _)
  · rw [update_of_ne same]
    have notNew : ∀ content : Finset α, x ∈ insert key content ↔ x ∈ content := fun content =>
      Finset.mem_insert.trans (or_iff_right same)
    refine lookup_congr (notNew t.ins) (update_of_ne same _ _) ?_ rfl
    rw [mem_live, mem_live]
    exact and_congr_right fun _ => and_congr_right fun _ => not_congr (notNew t.del)

/-- The new data are found. -/
theorem lookup_overwriteIns (inserted : key ∈ t.ins) :
    (t.overwriteIns key data).lookup = update t.lookup key (some data) := by
  funext x
  by_cases same : x = key
  · subst same
    rw [lookup_ins (t := t.overwriteIns x data) inserted, update_self]
    exact congrArg some (update_self _ _ _)
  · rw [update_of_ne same]
    exact lookup_congr Iff.rfl (update_of_ne same _ _) Iff.rfl rfl

end TableTrees

/-- After a shared row the cursor is on it in all trees. -/
theorem updateRow_shared (moveto : MovetoUnpacked α) (new : α → Data) (shared : key ∈ t.shared)
    (state : b.state = .useShared) :
    updateRow moveto new t (.ofBt b) key =
      (t.replaceShared key (new key),
        { pCur := some key
          pCurIns := .valid key
          pCurDel := some key
          sharedIsUsed := true
          transIsUsed := true }) := by
  have ins := land_eq_some moveto .ins (Finset.mem_insert_self key t.ins)
  have del := land_eq_some moveto .del (Finset.mem_insert_self key t.del)
  have cur := land_eq_some moveto .shared shared
  simp [updateRow, sqlite3TransBtreeInsert, RowCursor.ofBt, state, cur, ins, del, pRes_self,
    Position.ofOption, TableTrees.replaceShared]

/-- After an inserted row the cursor stands where it stood. -/
theorem updateRow_trans (moveto : MovetoUnpacked α) (new : α → Data) (inserted : key ∈ t.ins)
    (there : b.pCurIns = some key) (state : b.state = .useTrans) :
    updateRow moveto new t (.ofBt b) key = (t.overwriteIns key (new key), .ofBt b) := by
  have ins := land_eq_some moveto .ins inserted
  simp [updateRow, sqlite3TransBtreeInsert, RowCursor.ofBt, state, ins, there, pRes_self,
    Position.ofOption, Finset.insert_eq_of_mem inserted, TableTrees.overwriteIns]

/-- An undisturbed scan at a row. -/
def AtRow (d : Dir) (t : TableTrees α Data) (b : BtCursor α) (key : α) : Prop :=
  ∃ overlaid : t.Overlaid, Standing overlaid.overlay d b key ∧ Ready overlaid.overlay d b key

/-- A step ends at a row. -/
theorem AtRow.of_outcome {key : α} {result : RowCursor α × Rc} (overlaid : t.Overlaid)
    (outcome : Outcome t d (d.lt key)
      (fun b next => Standing overlaid.overlay d b next ∧ Ready overlaid.overlay d b next) result) :
    Outcome t d (d.lt key) (AtRow d t) result :=
  outcome.imp fun _ _ _ _ holds => ⟨overlaid, holds⟩

/-- A step that changes nothing. -/
theorem AtRow.stepRight_of_not_mem {chosen : Finset α} {result : α → Option Data}
    (atRow : AtRow d t b key) (left : key ∉ chosen) :
    StepRight chosen d result (AtRow d) t key (t, .ofBt b) := by
  obtain ⟨overlaid, stands, ready⟩ := atRow
  exact ⟨overlaid, .refl t d key, (if_neg left).symm,
    AtRow.of_outcome overlaid (stands.outcome_ready ready)⟩

/-- A step that updates a shared row. -/
theorem Standing.updates_shared {overlaid : t.Overlaid} (stands : Standing overlaid.overlay d b key)
    (state : b.state = .useShared) (moveto : MovetoUnpacked α) (new : α → Data) {chosen : Finset α}
    (picked : key ∈ chosen) :
    StepRight chosen d (fun x => some (new x)) (AtRow d) t key
      (updateRow moveto new t (.ofBt b) key) := by
  have shared : key ∈ t.shared := (TableTrees.mem_live.1 (stands.mem_live state)).2.1
  have departed := stands.departs_shared state
  have agree : t.AgreeAfter (t.replaceShared key (new key)) d key :=
    TableTrees.agreeAfter_replaceShared
  have overlaid' := overlaid.replaceShared (new key) shared
  rw [updateRow_shared moveto new shared state]
  refine ⟨overlaid', agree, ?_, ?_⟩
  · rw [if_pos picked]
    exact TableTrees.lookup_replaceShared
  · rw [sqlite3BtreeAdvanceAll_both rfl rfl (show _ = some key from rfl) rfl]
    apply AtRow.of_outcome overlaid'
    have placed : ∀ y, some key = some y → y ∈ (t.replaceShared key (new key)).del := by
      rintro y ⟨⟩
      exact Finset.mem_insert_self key t.del
    apply (agree.departed overlaid' departed placed).outcome_ready overlaid' ?_ rfl ?_ rfl
    · -- The deletion cursor stands on the row itself.
      intro y moved x _ notBefore
      have later := Dir.lt_of_lt_of_not_lt (step_eq_some_iff.1 moved).1.2 notBefore
      exact ⟨key, rfl, Dir.asymm later⟩
    · change Position.ofOption (step d (t.replaceShared key (new key)).ins key) = _
      rw [agree.step_ins, departed.ins]
      rfl

/-- A step that updates an inserted row. -/
theorem Standing.updates_trans {overlaid : t.Overlaid} (stands : Standing overlaid.overlay d b key)
    (ready : Ready overlaid.overlay d b key) (state : b.state = .useTrans)
    (moveto : MovetoUnpacked α) (new : α → Data) {chosen : Finset α} (picked : key ∈ chosen) :
    StepRight chosen d (fun x => some (new x)) (AtRow d) t key
      (updateRow moveto new t (.ofBt b) key) := by
  have inserted : key ∈ t.ins := stands.mem_ins state
  have overlaid' := overlaid.overwriteIns key (new key)
  rw [updateRow_trans moveto new inserted (stands.pCurIns_eq state) state]
  refine ⟨overlaid', TableTrees.agreeAfter_overwriteIns, ?_, ?_⟩
  · rw [if_pos picked]
    exact TableTrees.lookup_overwriteIns inserted
  · have stands' : Standing overlaid'.overlay d b key := stands
    exact AtRow.of_outcome overlaid' (stands'.outcome_ready ready)

/-- A scan that updates the chosen rows. -/
def updateScan (moveto : MovetoUnpacked α) (new : α → Data) (chosen : Finset α) (d : Dir)
    (limit : Nat) (t : TableTrees α Data) (c : RowCursor α) :
    Option (List (Row α Data) × TableTrees α Data) :=
  changingScan (updateRow moveto new) chosen d limit t c

/-- A scan in either direction that updates rows on the way visits every row of the view at its
start, in order and each once, shows the data from before the scan, and ends with the same keys in
the view and new data in the chosen rows. -/
theorem updateScan_visits_view (overlaid : t.Overlaid) (moveto : MovetoUnpacked α) (new : α → Data)
    (chosen : Finset α) (d : Dir) (c : RowCursor α) :
    ∃ rows after, (∀ limit, t.view.card ≤ limit →
        updateScan moveto new chosen d limit t c = some (rows, after)) ∧
      rows.Pairwise (fun a b => d.lt a.key b.key) ∧ (∀ row, row ∈ rows ↔ t.Shows row) ∧
      after.view = t.view ∧
      ∀ x ∈ t.view, after.viewData x = if x ∈ chosen then new x else t.viewData x := by
  obtain ⟨rows, after, ends, ordered, shown, changes⟩ :=
    changingScan_right (updateRow moveto new) chosen (fun x => some (new x)) (AtRow d)
      (fun t b key atRow => ⟨atRow.1, atRow.2.1⟩)
      (by
        intro t b key atRow
        unfold changeIfChosen
        split_ifs with picked
        · obtain ⟨overlaid, stands, ready⟩ := atRow
          cases state : b.state with
          | useShared => exact stands.updates_shared state moveto new picked
          | useTrans => exact stands.updates_trans ready state moveto new picked
        · exact atRow.stepRight_of_not_mem picked)
      overlaid c (fun b key stands ready _ => ⟨overlaid, stands, ready⟩)
  have view : after.view = t.view := by
    ext x
    rw [← TableTrees.lookup_isSome, ← TableTrees.lookup_isSome, changes x]
    split_ifs with visited
    · exact iff_of_true rfl (TableTrees.lookup_isSome.2 visited.2)
    · rfl
  refine ⟨rows, after, ends, ordered, shown, view, fun x inside => ?_⟩
  have data := changes x
  have inside' : x ∈ after.view := view ▸ inside
  rw [TableTrees.lookup_view inside', TableTrees.lookup_view inside] at data
  by_cases picked : x ∈ chosen
  · rw [if_pos ⟨picked, inside⟩] at data
    rw [if_pos picked]
    exact Option.some.inj data
  · rw [if_neg fun visited => picked visited.1] at data
    rw [if_neg picked]
    exact Option.some.inj data

/-- A shared row that was updated, one that was not, and an inserted one. -/
def updatedTable : TableTrees Int String where
  shared := {1, 2}
  sharedData := fun _ => "old"
  ins := {2, 3}
  insData := fun _ => "inserted"
  del := {2}
  deleteAll := false

/-- It lies over the shared tree. -/
theorem updatedTable_overlaid : updatedTable.Overlaid := ⟨by decide, by decide⟩

/-- A fresh cursor. -/
def freshCursor : RowCursor Int where
  pCur := none
  pCurIns := .invalid
  pCurDel := none
  sharedIsUsed := true
  transIsUsed := false

/-- A backward scan updates two of its rows. -/
theorem updateScan_updatedTable :
    updatedTable.Overlaid ∧
    ∃ rows after, (∀ limit, updatedTable.view.card ≤ limit →
        updateScan (.ofSide fun _ => .forward) (fun _ => "new") {1, 2} .backward limit updatedTable
          freshCursor = some (rows, after)) ∧
      rows.Pairwise (fun a b => Dir.backward.lt a.key b.key) ∧
      (∀ row, row ∈ rows ↔ updatedTable.Shows row) ∧ after.view = updatedTable.view ∧
      ∀ x ∈ updatedTable.view,
        after.viewData x = if x ∈ ({1, 2} : Finset Int) then "new" else updatedTable.viewData x :=
  ⟨updatedTable_overlaid, updateScan_visits_view updatedTable_overlaid _ _ _ _ _⟩

end SQLumDash.Change
