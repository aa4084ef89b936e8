import SQLumDash.Change.UpdateScan

/-!
# Deleting while scanning

The deletion of a shared row inserts its key into the deletion tree through the cursor that the scan
uses to skip deleted rows, and nothing moves that cursor back. If it is lost, deleted rows are shown
again, until the deletion of an inserted row seeks it anew.
-/

namespace SQLumDash.Change

open OrderedCursor Scan Function

variable {α Data : Type*} [LinearOrder α] {t : TableTrees α Data} {d : Dir} {b : BtCursor α}
  {key : α} {chosen : Finset α}

/-- The deletion of the row a cursor stands on. -/
def deleteRow (vendored : Vendored α) : RowChange α Data := fun t c _ =>
  sqlite3TransBtreeDelete vendored t c

namespace TableTrees

/-- A shared row is noted as deleted. -/
def deleteShared (t : TableTrees α Data) (key : α) : TableTrees α Data :=
  { t with del := insert key t.del }

/-- An inserted row is removed. -/
def removeIns (t : TableTrees α Data) (key : α) : TableTrees α Data :=
  { t with ins := t.ins.erase key }

/-- A shared row may be deleted. -/
theorem Overlaid.deleteShared (overlaid : t.Overlaid) (shared : key ∈ t.shared) :
    (t.deleteShared key).Overlaid :=
  ⟨Finset.insert_subset shared overlaid.del_subset, overlaid.ins_disjoint.mono_right
    (Finset.sdiff_subset_sdiff le_rfl (Finset.subset_insert _ _))⟩

/-- An inserted row may be removed. -/
theorem Overlaid.removeIns (overlaid : t.Overlaid) (key : α) : (t.removeIns key).Overlaid :=
  ⟨overlaid.del_subset, overlaid.ins_disjoint.mono_left (Finset.erase_subset _ _)⟩

/-- What comes later stays. -/
theorem agreeAfter_deleteShared : t.AgreeAfter (t.deleteShared key) d key :=
  ⟨rfl, rfl, rfl, fun _ _ => Iff.rfl, fun _ _ => rfl,
    fun _ later => Finset.mem_insert.trans (or_iff_right (Dir.ne later).symm)⟩

/-- What comes later stays. -/
theorem agreeAfter_removeIns : t.AgreeAfter (t.removeIns key) d key :=
  ⟨rfl, rfl, rfl, fun _ later => Finset.mem_erase.trans (and_iff_right (Dir.ne later).symm),
    fun _ _ => rfl, fun _ _ => Iff.rfl⟩

/-- What is gone is not found. -/
theorem lookup_eq_none {x : α} (gone : x ∉ t.view) : t.lookup x = none := if_neg gone

/-- A deleted row is not found. -/
theorem lookup_deleteShared (notInserted : key ∉ t.ins) :
    (t.deleteShared key).lookup = update t.lookup key none := by
  funext x
  by_cases same : x = key
  · subst same
    rw [update_self]
    apply lookup_eq_none
    rw [mem_view, mem_live, not_or]
    exact ⟨fun live => live.2.2 (Finset.mem_insert_self x t.del), notInserted⟩
  · rw [update_of_ne same]
    refine lookup_congr Iff.rfl rfl ?_ rfl
    rw [mem_live, mem_live]
    exact and_congr_right fun _ => and_congr_right fun _ =>
      not_congr (Finset.mem_insert.trans (or_iff_right same))

/-- A removed row is not found. -/
theorem lookup_removeIns (notLive : key ∉ t.live) :
    (t.removeIns key).lookup = update t.lookup key none := by
  funext x
  by_cases same : x = key
  · subst same
    rw [update_self]
    apply lookup_eq_none
    rw [mem_view, not_or]
    exact ⟨notLive, Finset.notMem_erase x t.ins⟩
  · rw [update_of_ne same]
    exact lookup_congr (Finset.mem_erase.trans (and_iff_right same)) rfl Iff.rfl rfl

end TableTrees

/-- Deleting a shared row leaves the cursor anywhere. -/
theorem deleteRow_shared (vendored : Vendored α) (there : b.pCur = some key)
    (state : b.state = .useShared) :
    deleteRow vendored t (.ofBt b) key =
      (t.deleteShared key, { RowCursor.ofBt b with pCurDel := vendored.place t.del key }) := by
  simp [deleteRow, sqlite3TransBtreeDelete, RowCursor.ofBt, state, there, TableTrees.deleteShared]

/-- Deleting an inserted row seeks it. -/
theorem deleteRow_trans (vendored : Vendored α) (there : b.pCurIns = some key)
    (state : b.state = .useTrans) :
    deleteRow vendored t (.ofBt b) key =
      (t.removeIns key,
        { RowCursor.ofBt b with
          pCurIns := .requireSeek key
          pCurDel := vendored.land .del t.del (Probe.exact key) }) := by
  simp [deleteRow, sqlite3TransBtreeDelete, RowCursor.ofBt, state, there, TableTrees.removeIns,
    Position.ofOption]

/-- Before every deleted row after `x` an inserted one is deleted. -/
def RepairedAfter (chosen : Finset α) (d : Dir) (t : TableTrees α Data) (x : α) : Prop :=
  ∀ y ∈ t.del, d.lt x y → ∃ k ∈ chosen, k ∈ t.ins ∧ d.lt x k ∧ d.lt k y

/-- Every deletion of a shared row is repaired in time. -/
def Repaired (chosen : Finset α) (d : Dir) (t : TableTrees α Data) : Prop :=
  ∀ x ∈ chosen, x ∈ t.live → RepairedAfter chosen d t x

instance (t : TableTrees α Data) : Decidable (Repaired chosen d t) :=
  inferInstanceAs (Decidable (∀ x ∈ chosen, x ∈ t.live →
    ∀ y ∈ t.del, d.lt x y → ∃ k ∈ chosen, k ∈ t.ins ∧ d.lt x k ∧ d.lt k y))

/-- A lost deletion cursor does no harm before the next deleted row, before which an inserted row is
deleted. -/
def Pending (chosen : Finset α) (d : Dir) (t : TableTrees α Data) (key : α) : Prop :=
  ∀ y ∈ t.del, d.lt key y → ∃ k ∈ chosen, k ∈ t.ins ∧ ¬ d.lt k key ∧ d.lt k y

/-- A scan that deletes stands on a row and will go on. -/
def SafeAt (chosen : Finset α) (d : Dir) (t : TableTrees α Data) (b : BtCursor α) (key : α) : Prop :=
  ∃ overlaid : t.Overlaid, Standing overlaid.overlay d b key ∧
    (Ready overlaid.overlay d b key ∨ Pending chosen d t key)

/-- Changes before it do not matter. -/
theorem TableTrees.AgreeAfter.repairedAfter {t' : TableTrees α Data}
    (agree : t.AgreeAfter t' d key) {x : α}
    (later : ¬ d.lt x key) (repaired : RepairedAfter chosen d t x) : RepairedAfter chosen d t' x := by
  have after : ∀ {y}, d.lt x y → d.lt key y := fun beyond => Dir.lt_of_not_lt_of_lt later beyond
  intro y deleted beyond
  obtain ⟨k, picked, inserted, sooner, between⟩ :=
    repaired y ((agree.del y (after beyond)).1 deleted) beyond
  exact ⟨k, picked, (agree.ins k (after sooner)).2 inserted, sooner, between⟩

/-- After an advance without the deletion cursor, an inserted row is still to be deleted. -/
theorem SafeAt.of_outcome_pending {result : RowCursor α × Rc} (overlaid : t.Overlaid)
    (repaired : RepairedAfter chosen d t key)
    (outcome : Outcome t d (d.lt key) (fun b next => Standing overlaid.overlay d b next) result) :
    Outcome t d (d.lt key) (SafeAt chosen d t) result := by
  refine outcome.imp fun b next later least stands => ⟨overlaid, stands, .inr ?_⟩
  intro y deleted beyond
  obtain ⟨k, picked, inserted, after, between⟩ := repaired y deleted (Dir.trans later beyond)
  exact ⟨k, picked, inserted, least k (TableTrees.mem_view.2 (.inr inserted)) after, between⟩

/-- A repair is an inserted row. -/
theorem RepairedAfter.pending (repaired : RepairedAfter chosen d t key) :
    ∀ y ∈ t.del, d.lt key y → ∃ k ∈ t.ins, d.lt key k ∧ d.lt k y := by
  intro y deleted later
  obtain ⟨k, -, inserted, after, between⟩ := repaired y deleted later
  exact ⟨k, inserted, after, between⟩

/-- What is pending at another row is pending after it. -/
theorem Pending.repairedAfter (pending : Pending chosen d t key)
    (apart : key ∈ chosen → key ∉ t.ins) : RepairedAfter chosen d t key := by
  intro y deleted later
  obtain ⟨k, picked, inserted, notBefore, between⟩ := pending y deleted later
  have differs : k ≠ key := by
    rintro rfl
    exact apart picked inserted
  exact ⟨k, picked, inserted, Dir.lt_of_not_lt_of_ne notBefore differs, between⟩

section Steps

variable {overlaid : t.Overlaid}

section

variable (stands : Standing overlaid.overlay d b key)

include stands

/-- A step that deletes nothing. -/
theorem Standing.stepRight_of_not_mem
    (safe : Ready overlaid.overlay d b key ∨ Pending chosen d t key) (left : key ∉ chosen) :
    StepRight chosen d (fun _ => none) (SafeAt chosen d) t key (t, .ofBt b) := by
  refine ⟨overlaid, .refl t d key, (if_neg left).symm, ?_⟩
  rcases safe with ready | pending
  · exact (stands.outcome_ready ready).imp fun _ _ _ _ holds => ⟨overlaid, holds.1, .inl holds.2⟩
  · have repaired := pending.repairedAfter fun picked => absurd picked left
    exact SafeAt.of_outcome_pending overlaid repaired (stands.outcome_pending repaired.pending)

/-- A step that deletes a shared row. -/
theorem Standing.deletes_shared (state : b.state = .useShared) (vendored : Vendored α)
    (repaired : RepairedAfter chosen d t key) (picked : key ∈ chosen) :
    StepRight chosen d (fun _ => none) (SafeAt chosen d) t key
      (deleteRow vendored t (.ofBt b) key) := by
  have live : key ∈ t.live := stands.mem_live state
  have there := stands.pCur_eq state
  have agree : t.AgreeAfter (t.deleteShared key) d key := TableTrees.agreeAfter_deleteShared
  have overlaid' := overlaid.deleteShared (TableTrees.mem_live.1 live).2.1
  have repaired' := agree.repairedAfter (Dir.irrefl d key) repaired
  rw [deleteRow_shared vendored there state]
  refine ⟨overlaid', agree, ?_, ?_⟩
  · rw [if_pos picked]
    exact TableTrees.lookup_deleteShared (overlaid.not_mem_ins live)
  · dsimp only
    rw [sqlite3BtreeAdvanceAll_shared (by simp [RowCursor.ofBt, state])
      (by simp [RowCursor.ofBt, state]) there ?_]
    · apply SafeAt.of_outcome_pending overlaid' repaired'
      have departed := agree.departed overlaid' (stands.departs_shared state)
        (vendored.places t.del key)
      exact departed.outcome_pending overlaid' repaired'.pending rfl rfl rfl
    · intro i position
      exact Dir.asymm (stands.ins_later state (Position.ofOption_eq_valid.1 position))

/-- A step that deletes an inserted row. -/
theorem Standing.deletes_trans (state : b.state = .useTrans) (vendored : Vendored α)
    (picked : key ∈ chosen) : StepRight chosen d (fun _ => none) (SafeAt chosen d) t key
      (deleteRow vendored t (.ofBt b) key) := by
  have inserted : key ∈ t.ins := stands.mem_ins state
  have agree : t.AgreeAfter (t.removeIns key) d key := TableTrees.agreeAfter_removeIns
  have overlaid' := overlaid.removeIns key
  have landing := vendored.lands .del t.del (Probe.exact key)
  rw [deleteRow_trans vendored (stands.pCurIns_eq state) state]
  refine ⟨overlaid', agree, ?_, ?_⟩
  · rw [if_pos picked]
    exact TableTrees.lookup_removeIns fun live => overlaid.not_mem_ins live inserted
  · dsimp only
    rw [sqlite3BtreeAdvanceAll_trans (by simp [RowCursor.ofBt, state])
      (by simp [RowCursor.ofBt, state]) (.inr rfl)
      fun y position => Dir.asymm (stands.shared_later state position)]
    have placed : ∀ y, vendored.land .del t.del (Probe.exact key) = some y →
        y ∈ (t.removeIns key).del := fun y landed => vendored.land_mem landed
    have departed := agree.departed overlaid' (stands.departs_trans state) placed
    have notPast : ∀ y, b.pCur = some y → ∀ x ∈ (t.removeIns key).del, ¬ d.lt x y →
        NotPast d (vendored.land .del t.del (Probe.exact key)) x := by
      intro y position x deleted notBefore
      have later := Dir.lt_of_lt_of_not_lt (stands.shared_later state position) notBefore
      exact landing.notPast deleted later
    have outcome := departed.outcome_ready overlaid' notPast
      (c := { RowCursor.ofBt b with
        pCurIns := .ofOption (step d (t.removeIns key).ins key)
        pCurDel := vendored.land .del t.del (Probe.exact key) }) rfl
      (congrArg Position.ofOption agree.step_ins) rfl
    exact outcome.imp fun _ _ _ _ holds => ⟨overlaid', holds.1, .inl holds.2⟩

end

/-- A safe scan goes on to the next row, if a deleted shared row is repaired in time. -/
theorem SafeAt.stepRight (safe : SafeAt chosen d t b key) (vendored : Vendored α)
    (repaired : key ∈ chosen → key ∈ t.live → RepairedAfter chosen d t key) :
    StepRight chosen d (fun _ => none) (SafeAt chosen d) t key
      (changeIfChosen (deleteRow vendored) chosen t (.ofBt b) key) := by
  obtain ⟨overlaid, stands, safe⟩ := safe
  unfold changeIfChosen
  split_ifs with picked
  · cases state : b.state with
    | useShared =>
      exact stands.deletes_shared state vendored (repaired picked (stands.mem_live state)) picked
    | useTrans => exact stands.deletes_trans state vendored picked
  · exact stands.stepRight_of_not_mem safe picked

end Steps

/-- A scan that deletes the chosen rows. -/
def deleteScan (vendored : Vendored α) (chosen : Finset α) (d : Dir) (limit : Nat)
    (t : TableTrees α Data) (c : RowCursor α) : Option (List (Row α Data) × TableTrees α Data) :=
  changingScan (deleteRow vendored) chosen d limit t c

/-- Every row of the view was visited once, in order, and the chosen rows are gone. -/
def DeletedRight (chosen : Finset α) (d : Dir) (t : TableTrees α Data) (rows : List (Row α Data))
    (after : TableTrees α Data) : Prop :=
  rows.Pairwise (fun a b => d.lt a.key b.key) ∧ (∀ row, row ∈ rows ↔ t.Shows row) ∧
    ∀ x, after.lookup x = if x ∈ chosen then none else t.lookup x

/-- A scan that deletes ends and is right. -/
def DeletesRight (vendored : Vendored α) (chosen : Finset α) (d : Dir) (t : TableTrees α Data)
    (c : RowCursor α) : Prop :=
  ∃ limit rows after, deleteScan vendored chosen d limit t c = some (rows, after) ∧
    DeletedRight chosen d t rows after

/-- The scan is right if every deletion is repaired. -/
theorem deletesRight_of_repaired (overlaid : t.Overlaid) (repaired : Repaired chosen d t)
    (vendored : Vendored α) (c : RowCursor α) : DeletesRight vendored chosen d t c := by
  let Inv (t : TableTrees α Data) (b : BtCursor α) (key : α) : Prop :=
    SafeAt chosen d t b key ∧
      ∀ x ∈ chosen, x ∈ t.live → ¬ d.lt x key → RepairedAfter chosen d t x
  have steps : ∀ t b key, Inv t b key → StepRight chosen d (fun _ => none) Inv t key
      (changeIfChosen (deleteRow vendored) chosen t (.ofBt b) key) := by
    intro t b key inv
    have step := inv.1.stepRight vendored fun picked live => inv.2 key picked live (Dir.irrefl d key)
    refine ⟨step.overlaid, step.agree, step.effect, step.outcome.imp ?_⟩
    intro b' next later _ safe
    refine ⟨safe, fun x picked live notBefore => ?_⟩
    have after := Dir.lt_of_lt_of_not_lt later notBefore
    exact step.agree.repairedAfter (Dir.asymm after)
      (inv.2 x picked ((step.agree.live after).1 live) (Dir.asymm after))
  obtain ⟨rows, after, ends, ordered, shown, changes⟩ :=
    changingScan_right (deleteRow vendored) chosen (fun _ => none) Inv
      (fun t b key inv => ⟨inv.1.1, inv.1.2.1⟩) steps overlaid c (fun b key stands ready _ =>
        ⟨⟨overlaid, stands, .inl ready⟩, fun x picked live _ => repaired x picked live⟩)
  refine ⟨t.view.card, rows, after, ends _ le_rfl, ordered, shown, fun x => ?_⟩
  rw [changes x]
  by_cases inside : x ∈ t.view
  · exact if_congr (and_iff_left inside) rfl rfl
  · rw [TableTrees.lookup_eq_none inside, ite_self, ite_self]

section Faults

variable {x y : α}

/-- A shared row that is deleted, the next deleted row, and no repair between. -/
structure Unrepaired (chosen : Finset α) (d : Dir) (t : TableTrees α Data) (x y : α) : Prop where
  picked : x ∈ chosen
  live : x ∈ t.live
  deleted : y ∈ t.del
  later : d.lt x y
  gap : ∀ k ∈ chosen, k ∈ t.ins → d.lt x k → ¬ d.lt k y

/-- Changes before it do not matter. -/
theorem Unrepaired.of_agree {t' : TableTrees α Data} (fault : Unrepaired chosen d t x y)
    (agree : t.AgreeAfter t' d key) (ahead : d.lt key x) : Unrepaired chosen d t' x y := by
  refine ⟨fault.picked, (agree.live ahead).2 fault.live,
    (agree.del y (Dir.trans ahead fault.later)).2 fault.deleted, fault.later, ?_⟩
  intro k picked inserted after
  exact fault.gap k picked ((agree.ins k (Dir.trans ahead after)).1 inserted) after

/-- The deletion cursor is lost before the deleted row `y`. -/
structure LostAt (chosen : Finset α) (d : Dir) (x y : α) (t : TableTrees α Data) (b : BtCursor α)
    (key : α) : Prop where
  lost : b.pCurDel = none
  lead : b.current = some ⟨b.state, key⟩
  led : leader d b.pCur b.pCurIns = some b.state
  notPast : NotPast d b.pCur y
  before : d.lt key y ∨ (b.state = .useShared ∧ key = y)
  ins : ∀ i, b.pCurIns = some i → i ∈ t.ins ∧ d.lt x i
  shared : y ∈ t.shared
  gap : ∀ k ∈ chosen, k ∈ t.ins → d.lt x k → ¬ d.lt k y

/-- The next row is before the deleted one, or is that one. -/
theorem lostAt_of_positions {b : BtCursor α} (lost : b.pCurDel = none) (notPast : NotPast d b.pCur y)
    (ins : ∀ i, b.pCurIns = some i → i ∈ t.ins ∧ d.lt x i) (shared : y ∈ t.shared)
    (gap : ∀ k ∈ chosen, k ∈ t.ins → d.lt x k → ¬ d.lt k y) :
    ∃ b' next, btreeSeekToExistAll t d (.ofBt b) = (.ofBt b', .ok) ∧
      LostAt chosen d x y t b' next := by
  obtain ⟨z, there, notPast'⟩ := notPast
  have settled : ∀ use, leader d b.pCur b.pCurIns = some use →
      btreeSeekToExistAll t d (.ofBt b) = (.ofBt { b with state := use }, .ok) := by
    intro use led
    have stays : seekToExistLoop d t.shared t.del (t.shared.card + t.del.card + 1) b.pCur none =
        (b.pCur, none) := by
      rw [there]
      rfl
    have led' : leader d b.pCur (Position.ofOption b.pCurIns).entry = some use := by
      rw [Position.entry_ofOption, led]
    unfold btreeSeekToExistAll RowCursor.ofBt
    simp only [lost, stays, led']
  rcases leader_cases d b.pCur b.pCurIns with ⟨-, nowhere, -⟩ | ⟨key, led, here, -⟩ |
    ⟨i, led, here, first⟩
  · rw [there] at nowhere
    cases nowhere
  · cases there.symm.trans here
    refine ⟨_, z, settled _ led, lost, ?_, led, ⟨z, there, notPast'⟩, ?_, ins, shared, gap⟩
    · simp only [BtCursor.current, there, Option.map_some]
    · rcases Dir.not_lt_iff.1 notPast' with same | before
      · exact .inr ⟨rfl, same.symm⟩
      · exact .inl before
  · refine ⟨_, i, settled _ led, lost, ?_, led, ⟨z, there, notPast'⟩, .inl ?_, ins, shared, gap⟩
    · simp only [BtCursor.current, here, Option.map_some]
    · exact Dir.lt_of_lt_of_not_lt (first z there) notPast'

/-- Deleting a shared row loses the deletion cursor. -/
theorem deleteRow_lost_shared (there : b.pCur = some key) (state : b.state = .useShared)
    (t : TableTrees α Data) :
    deleteRow .lost t (.ofBt b) key = (t.deleteShared key, .ofBt { b with pCurDel := none }) :=
  deleteRow_shared .lost there state

/-- The deletion cursor stays lost. -/
theorem LostAt.step (at_ : LostAt chosen d x y t b key) (before : d.lt key y) :
    ∃ t' c' b' next, changeIfChosen (deleteRow .lost) chosen t (.ofBt b) key = (t', c') ∧
      sqlite3BtreeAdvanceAll t' d c' = (.ofBt b', .ok) ∧ LostAt chosen d x y t' b' next := by
  have led := at_.led
  cases state : b.state with
  | useShared =>
    have there := pCur_eq_of_current at_.lead state
    -- Deleted or not, the row is left with the positions it was met with.
    obtain ⟨t', changed, shared, ins⟩ : ∃ t' : TableTrees α Data,
        changeIfChosen (deleteRow .lost) chosen t (.ofBt b) key = (t', .ofBt b) ∧
          t'.shared = t.shared ∧ t'.ins = t.ins := by
      unfold changeIfChosen
      split_ifs
      · refine ⟨t.deleteShared key, ?_, rfl, rfl⟩
        rw [deleteRow_lost_shared there state, ← at_.lost]
      · exact ⟨t, rfl, rfl, rfl⟩
    have advanced : sqlite3BtreeAdvanceAll t' d (.ofBt b) =
        btreeSeekToExistAll t' d (.ofBt { b with pCur := OrderedCursor.step d t'.shared key }) := by
      apply sqlite3BtreeAdvanceAll_shared (by simp [RowCursor.ofBt, state])
        (by simp [RowCursor.ofBt, state]) there
      intro i position
      rw [there, Position.ofOption_eq_valid.1 position, state] at led
      exact not_lt_of_leader led
    have shared' : y ∈ t'.shared := shared ▸ at_.shared
    have ins' : ∀ i, b.pCurIns = some i → i ∈ t'.ins ∧ d.lt x i := ins ▸ at_.ins
    have gap' : ∀ k ∈ chosen, k ∈ t'.ins → d.lt x k → ¬ d.lt k y := ins ▸ at_.gap
    obtain ⟨b', next, settled, lost⟩ := lostAt_of_positions
      (b := { b with pCur := OrderedCursor.step d t'.shared key }) at_.lost
      (notPast_step shared' before) ins' shared' gap'
    exact ⟨t', _, b', next, changed, advanced.trans settled, lost⟩
  | useTrans =>
    have there := pCurIns_eq_of_current at_.lead state
    obtain ⟨inserted, after⟩ := at_.ins key there
    have left : key ∉ chosen := fun picked => at_.gap key picked inserted after before
    have advanced : sqlite3BtreeAdvanceAll t d (.ofBt b) =
        btreeSeekToExistAll t d (.ofBt { b with pCurIns := OrderedCursor.step d t.ins key }) := by
      apply sqlite3BtreeAdvanceAll_trans (by simp [RowCursor.ofBt, state])
        (by simp [RowCursor.ofBt, state]) (.inl (Position.ofOption_eq_valid.2 there))
      intro z position
      rw [there, show b.pCur = some z from position, state] at led
      exact Dir.asymm (lt_of_leader led)
    have ahead : ∀ i, OrderedCursor.step d t.ins key = some i → i ∈ t.ins ∧ d.lt x i := by
      intro i moved
      obtain ⟨⟨inside, later⟩, -⟩ := step_eq_some_iff.1 moved
      exact ⟨inside, Dir.trans after later⟩
    obtain ⟨b', next, settled, lost⟩ := lostAt_of_positions
      (b := { b with pCurIns := OrderedCursor.step d t.ins key }) at_.lost at_.notPast ahead
      at_.shared at_.gap
    exact ⟨t, .ofBt b, b', next, if_neg left, advanced.trans settled, lost⟩

/-- A deletion that is not repaired loses it. -/
theorem Standing.loses {overlaid : t.Overlaid} (stands : Standing overlaid.overlay d b x)
    (fault : Unrepaired chosen d t x y) :
    ∃ b' next, changeIfChosen (deleteRow .lost) chosen t (.ofBt b) x =
        (t.deleteShared x, .ofBt { b with pCurDel := none }) ∧
      sqlite3BtreeAdvanceAll (t.deleteShared x) d (.ofBt { b with pCurDel := none }) =
        (.ofBt b', .ok) ∧
      LostAt chosen d x y (t.deleteShared x) b' next := by
  have state : b.state = .useShared := by
    cases state : b.state with
    | useShared => rfl
    | useTrans => exact absurd (stands.mem_ins state) (overlaid.not_mem_ins fault.live)
  have there := stands.pCur_eq state
  have shared : y ∈ t.shared := overlaid.del_subset fault.deleted
  obtain ⟨b', next, settled, lost⟩ := lostAt_of_positions (t := t.deleteShared x)
    (b := { b with pCur := step d t.shared x, pCurDel := none }) rfl
    (notPast_step shared fault.later)
    (fun i position => ⟨stands.placed.ins i position, stands.ins_later state position⟩) shared
    fault.gap
  refine ⟨b', next, ?_, ?_, lost⟩
  · rw [changeIfChosen, if_pos fault.picked, deleteRow_lost_shared there state]
  · rw [← settled]
    apply sqlite3BtreeAdvanceAll_shared (by simp [RowCursor.ofBt, state])
      (by simp [RowCursor.ofBt, state]) there
    intro i position
    exact Dir.asymm (stands.ins_later state (Position.ofOption_eq_valid.1 position))

variable {rows : List (Row α Data)}

/-- The first row that the loop shows. -/
theorem changingLoop_shows {change : RowChange α Data} {fuel : Nat} {c : RowCursor α}
    {row : Row α Data} {after : TableTrees α Data} (current : c.current t = some row)
    (ends : changingLoop change chosen d (fuel + 1) t c = some (rows, after)) : row ∈ rows := by
  rw [changingLoop, current] at ends
  dsimp only at ends
  split at ends
  · obtain ⟨rest, -, same⟩ := Option.map_eq_some_iff.1 ends
    cases same
    exact List.mem_cons_self
  · cases ends
    exact List.mem_cons_self

/-- A round shows what the rest of the loop shows. -/
theorem changingLoop_rest {change : RowChange α Data} {fuel : Nat} {c c' : RowCursor α}
    {row : Row α Data} {t' after : TableTrees α Data} {next : RowCursor α}
    (current : c.current t = some row) (rowKey : row.key = key)
    (changed : changeIfChosen change chosen t c key = (t', c'))
    (advanced : sqlite3BtreeAdvanceAll t' d c' = (next, .ok))
    (ends : changingLoop change chosen d (fuel + 1) t c = some (rows, after)) :
    ∃ rest, changingLoop change chosen d fuel t' next = some (rest, after) ∧ rows = row :: rest := by
  rw [changingLoop, current] at ends
  simp only [rowKey, changed, advanced] at ends
  obtain ⟨⟨rest, after'⟩, later, same⟩ := Option.map_eq_some_iff.1 ends
  cases same
  exact ⟨rest, later, rfl⟩

/-- A scan with a lost cursor shows the deleted row. -/
theorem LostAt.shows (fuel : Nat) :
    ∀ {t : TableTrees α Data} {b : BtCursor α} {key : α} {rows : List (Row α Data)}
      {after : TableTrees α Data}, LostAt chosen d x y t b key →
      changingLoop (deleteRow .lost) chosen d fuel t (.ofBt b) = some (rows, after) →
      ∃ row ∈ rows, row.use = .useShared ∧ row.key = y := by
  induction fuel with
  | zero => exact fun _ ends => nomatch ends
  | succ fuel ih =>
    intro t b key rows after at_ ends
    have current : (RowCursor.ofBt b).current t = some (t.row ⟨b.state, key⟩) := by
      rw [RowCursor.current_ofBt, at_.lead]
      rfl
    rcases at_.before with before | ⟨state, rfl⟩
    · obtain ⟨t', c', b', next, changed, advanced, lost⟩ := at_.step before
      obtain ⟨rest, later, rfl⟩ := changingLoop_rest current (t.row_key _) changed advanced ends
      obtain ⟨row, member, shown⟩ := ih lost later
      exact ⟨row, List.mem_cons_of_mem _ member, shown⟩
    · rw [state] at current
      exact ⟨_, changingLoop_shows current ends, rfl, rfl⟩

/-- So does one that is safe until an unrepaired deletion. -/
theorem SafeAt.shows_deleted (fuel : Nat) :
    ∀ {t : TableTrees α Data} {b : BtCursor α} {key : α} {rows : List (Row α Data)}
      {after : TableTrees α Data}, SafeAt chosen d t b key → Unrepaired chosen d t x y →
      ¬ d.lt x key →
      (∀ z ∈ chosen, z ∈ t.live → ¬ d.lt z key → d.lt z x → RepairedAfter chosen d t z) →
      changingLoop (deleteRow .lost) chosen d fuel t (.ofBt b) = some (rows, after) →
      ∃ row ∈ rows, row.use = .useShared ∧ row.key = y := by
  induction fuel with
  | zero => exact fun _ _ _ _ ends => nomatch ends
  | succ fuel ih =>
    intro t b key rows after safe fault ahead repaired ends
    have ⟨overlaid, stands, _⟩ := safe
    have current : (RowCursor.ofBt b).current t = some (t.row ⟨b.state, key⟩) := by
      rw [RowCursor.current_ofBt, stands.lead]
      rfl
    have goesOn : ∀ {t' c' b'}, changeIfChosen (deleteRow .lost) chosen t (.ofBt b) key = (t', c') →
        sqlite3BtreeAdvanceAll t' d c' = (.ofBt b', .ok) →
        (∀ {rest}, changingLoop (deleteRow .lost) chosen d fuel t' (.ofBt b') = some (rest, after) →
          ∃ row ∈ rest, row.use = .useShared ∧ row.key = y) →
        ∃ row ∈ rows, row.use = .useShared ∧ row.key = y := by
      intro t' c' b' changed advanced shows
      obtain ⟨rest, later, rfl⟩ := changingLoop_rest current (t.row_key _) changed advanced ends
      obtain ⟨row, member, shown⟩ := shows later
      exact ⟨row, List.mem_cons_of_mem _ member, shown⟩
    by_cases same : key = x
    · subst same
      obtain ⟨b', next, deleted, advanced, lost⟩ := stands.loses fault
      exact goesOn deleted advanced fun later => LostAt.shows fuel lost later
    · have later : d.lt key x := Dir.lt_of_not_lt_of_ne ahead (Ne.symm same)
      have step := safe.stepRight .lost fun picked live =>
        repaired key picked live (Dir.irrefl d key) later
      generalize changing : changeIfChosen (deleteRow .lost) chosen t (.ofBt b) key = changed at step
      obtain ⟨t', c'⟩ := changed
      have outcome := step.outcome
      generalize advancing : sqlite3BtreeAdvanceAll t' d c' = result at outcome
      have inView : x ∈ t'.view :=
        TableTrees.mem_view.2 (.inl ((step.agree.live later).2 fault.live))
      cases outcome with
      | done c nothing => exact absurd later (nothing x inView)
      | next b' next safe' beyond least =>
        refine goesOn changing advancing fun rest =>
          ih safe' (fault.of_agree step.agree later) (least x inView later) ?_ rest
        intro z picked live notBefore sooner
        have after' := Dir.lt_of_lt_of_not_lt beyond notBefore
        exact step.agree.repairedAfter (Dir.asymm after')
          (repaired z picked ((step.agree.live after').1 live) (Dir.asymm after') sooner)

/-- The first unrepaired deletion makes the scan show the deleted row. -/
theorem deleteScan_shows (overlaid : t.Overlaid) (fault : Unrepaired chosen d t x y)
    (repaired : ∀ z ∈ chosen, z ∈ t.live → d.lt z x → RepairedAfter chosen d t z) {limit : Nat}
    {c : RowCursor α} {after : TableTrees α Data}
    (ends : deleteScan .lost chosen d limit t c = some (rows, after)) :
    ∃ row ∈ rows, row.use = .useShared ∧ row.key = y := by
  have outcome := sqlite3BtreeFirstAll_outcome (d := d) overlaid c
  unfold deleteScan changingScan at ends
  generalize sqlite3BtreeFirstAll t d c = start at outcome ends
  have inView : x ∈ t.view := TableTrees.mem_view.2 (.inl fault.live)
  cases outcome with
  | done c' nothing => exact absurd trivial (nothing x inView)
  | next b key holds _ first =>
    exact SafeAt.shows_deleted limit ⟨overlaid, holds.1, .inl holds.2⟩ fault (first x inView trivial)
      (fun z picked live _ => repaired z picked live) ends

/-- An unrepaired deletion makes the scan wrong. -/
theorem not_deletesRight_of_not_repaired (overlaid : t.Overlaid) (broken : ¬ Repaired chosen d t)
    (c : RowCursor α) : ¬ DeletesRight .lost chosen d t c := by
  rintro ⟨limit, rows, after, ends, -, shown, -⟩
  -- The first row whose deletion is not repaired is reached safely.
  have bad : ∃ x ∈ chosen, x ∈ t.live ∧ ¬ RepairedAfter chosen d t x := by
    unfold Repaired at broken
    push Not at broken
    exact broken
  obtain ⟨x₀, picked₀, bad₀⟩ := bad
  classical
  obtain ⟨x, found⟩ := exists_first (d := d)
    (Finset.mem_filter.2 ⟨picked₀, bad₀⟩ :
      x₀ ∈ chosen.filter fun x => x ∈ t.live ∧ ¬ RepairedAfter chosen d t x)
  obtain ⟨member, least⟩ := first_eq_some_iff.1 found
  obtain ⟨picked, live, unrepaired⟩ := Finset.mem_filter.1 member
  unfold RepairedAfter at unrepaired
  push Not at unrepaired
  obtain ⟨y, deleted, later, gap⟩ := unrepaired
  obtain ⟨row, inside, use, same⟩ := deleteScan_shows overlaid ⟨picked, live, deleted, later, gap⟩
    (fun z pickedZ liveZ sooner => by
      by_contra bad
      exact least z (Finset.mem_filter.2 ⟨pickedZ, liveZ, bad⟩) sooner) ends
  have shows := (shown row).1 inside
  unfold TableTrees.Shows at shows
  rw [use, same] at shows
  exact (TableTrees.mem_live.1 shows.1).2.2 deleted

end Faults

/-- A scan that deletes is right, wherever an insertion into the deletion tree leaves its cursor, if
and only if every deletion of a shared row is repaired in time. -/
theorem deletesRight_iff_repaired (overlaid : t.Overlaid) (chosen : Finset α) (d : Dir)
    (c : RowCursor α) :
    (∀ vendored, DeletesRight vendored chosen d t c) ↔ Repaired chosen d t := by
  constructor
  · intro right
    by_contra broken
    exact not_deletesRight_of_not_repaired overlaid broken c (right .lost)
  · exact fun repaired vendored => deletesRight_of_repaired overlaid repaired vendored c

end SQLumDash.Change
