import SQLumDash.Change.Leave

/-!
# Scans that change what they visit

A statement changes each chosen row while the cursor stands on it. What comes after the row is as
before. If every step then takes the cursor to the next row, the scan visits the rows of the view as
it was at the start, each once, and changes exactly the chosen rows.
-/

namespace SQLumDash.Change

open OrderedCursor Scan Function

variable {α Data : Type*} [LinearOrder α]

/-- A change of one row through its cursor. -/
abbrev RowChange (α Data : Type*) :=
  TableTrees α Data → RowCursor α → α → TableTrees α Data × RowCursor α

section Scans

variable (change : RowChange α Data) (chosen : Finset α) (d : Dir)

/-- A row is changed if it is chosen. -/
def changeIfChosen (t : TableTrees α Data) (c : RowCursor α) (key : α) :
    TableTrees α Data × RowCursor α :=
  if key ∈ chosen then change t c key else (t, c)

/-- The rows that changing and advancing shows and the trees at the end, if the fuel suffices. -/
def changingLoop : Nat → TableTrees α Data → RowCursor α →
    Option (List (Row α Data) × TableTrees α Data)
  | 0, _, _ => none
  | fuel + 1, t, c =>
    match c.current t with
    | none => some ([], t)
    | some row =>
      let changed := changeIfChosen change chosen t c row.key
      match sqlite3BtreeAdvanceAll changed.1 d changed.2 with
      | (c, .ok) =>
        (changingLoop fuel changed.1 c).map fun rest => (row :: rest.1, rest.2)
      | _ => some ([row], changed.1)

/-- A whole scan with a limit on the number of advances. -/
def changingScan (limit : Nat) (t : TableTrees α Data) (c : RowCursor α) :
    Option (List (Row α Data) × TableTrees α Data) :=
  match sqlite3BtreeFirstAll t d c with
  | (c, .ok) => changingLoop change chosen d limit t c
  | _ => some ([], t)

end Scans

namespace TableTrees

/-- What the transaction reads under a key. -/
def lookup (t : TableTrees α Data) (key : α) : Option Data :=
  if key ∈ t.view then some (t.viewData key) else none

/-- The row behind an entry that a cursor shows. -/
def row (t : TableTrees α Data) (visit : Visit α) : Row α Data :=
  match visit.use with
  | .useShared => ⟨.useShared, visit.key, t.sharedData visit.key⟩
  | .useTrans => ⟨.useTrans, visit.key, t.insData visit.key⟩

/-- Everything after `key` is the same in both. -/
structure AgreeAfter (t t' : TableTrees α Data) (d : Dir) (key : α) : Prop where
  shared : t'.shared = t.shared
  sharedData : t'.sharedData = t.sharedData
  deleteAll : t'.deleteAll = t.deleteAll
  ins : ∀ x, d.lt key x → (x ∈ t'.ins ↔ x ∈ t.ins)
  insData : ∀ x, d.lt key x → t'.insData x = t.insData x
  del : ∀ x, d.lt key x → (x ∈ t'.del ↔ x ∈ t.del)

variable {t t' : TableTrees α Data} {d : Dir} {key : α}

/-- Nothing changed. -/
theorem AgreeAfter.refl (t : TableTrees α Data) (d : Dir) (key : α) : t.AgreeAfter t d key :=
  ⟨rfl, rfl, rfl, fun _ _ => Iff.rfl, fun _ _ => rfl, fun _ _ => Iff.rfl⟩

omit [LinearOrder α] in
/-- A row has the key of its entry. -/
@[simp] theorem row_key (visit : Visit α) : (t.row visit).key = visit.key := by
  obtain ⟨use, key⟩ := visit
  cases use <;> rfl

variable {x : α}

/-- The view is live and inserted rows. -/
theorem mem_view : x ∈ t.view ↔ x ∈ t.live ∨ x ∈ t.ins := by
  unfold view live
  cases t.deleteAll <;> simp

/-- Live rows are shared and not deleted. -/
theorem mem_live : x ∈ t.live ↔ t.deleteAll = false ∧ x ∈ t.shared ∧ x ∉ t.del := by
  unfold live
  cases t.deleteAll <;> simp

/-- A row of the view is found. -/
theorem lookup_view (inside : x ∈ t.view) : t.lookup x = some (t.viewData x) :=
  if_pos inside

/-- An inserted row is found. -/
theorem lookup_ins (inserted : x ∈ t.ins) : t.lookup x = some (t.insData x) := by
  simp only [lookup, mem_view, viewData, inserted, or_true, if_true]

/-- A key is read if it is in the view. -/
theorem lookup_isSome : (t.lookup x).isSome = true ↔ x ∈ t.view := by
  unfold lookup
  split_ifs with inside <;> simp [inside]

/-- What is read depends on the trees at the key only. -/
theorem lookup_congr (ins : x ∈ t'.ins ↔ x ∈ t.ins) (insData : t'.insData x = t.insData x)
    (live : x ∈ t'.live ↔ x ∈ t.live) (sharedData : t'.sharedData x = t.sharedData x) :
    t'.lookup x = t.lookup x := by
  simp only [lookup, mem_view, viewData, ins, insData, live, sharedData]

section

variable (agree : t.AgreeAfter t' d key)

include agree

/-- Later live rows stay. -/
theorem AgreeAfter.live (later : d.lt key x) : x ∈ t'.live ↔ x ∈ t.live := by
  rw [mem_live, mem_live, agree.deleteAll, agree.shared, agree.del x later]

/-- The later view stays. -/
theorem AgreeAfter.view (later : d.lt key x) : x ∈ t'.view ↔ x ∈ t.view := by
  rw [mem_view, mem_view, agree.live later, agree.ins x later]

/-- Later rows stay. -/
theorem AgreeAfter.row {visit : Visit α} (later : d.lt key visit.key) :
    t'.row visit = t.row visit := by
  obtain ⟨use, x⟩ := visit
  cases use with
  | useShared => simp only [TableTrees.row, agree.sharedData]
  | useTrans => simp only [TableTrees.row, agree.insData x later]

/-- Later entries are shown as before. -/
theorem AgreeAfter.shows (overlaid : t.Overlaid) (overlaid' : t'.Overlaid) {visit : Visit α}
    (later : d.lt key visit.key) :
    overlaid'.overlay.Shows visit ↔ overlaid.overlay.Shows visit := by
  obtain ⟨use, x⟩ := visit
  cases use with
  | useShared => exact agree.live later
  | useTrans => exact agree.ins x later

/-- What is shown of the part after `key` is shown in both. -/
theorem AgreeAfter.lists (overlaid : t.Overlaid) (overlaid' : t'.Overlaid) {P : α → Prop}
    (after : ∀ x, P x → d.lt key x) {visits : List (Visit α)}
    (lists : Lists overlaid'.overlay d P visits) : Lists overlaid.overlay d P visits :=
  ⟨lists.1, fun visit => (lists.2 visit).trans
    (and_congr_left fun wanted => agree.shows overlaid overlaid' (after visit.key wanted))⟩

/-- The next inserted row stays. -/
theorem AgreeAfter.step_ins : step d t'.ins key = step d t.ins key := by
  unfold step
  congr 1
  ext x
  simp only [Finset.mem_filter]
  exact and_congr_left fun later => agree.ins x later

/-- The positions are right before and after the change. -/
theorem AgreeAfter.departed {overlaid : t.Overlaid} (overlaid' : t'.Overlaid)
    {pCur pCurIns pCurDel pCurDel' : Option α}
    (departed : Departed overlaid.overlay d key pCur pCurIns pCurDel)
    (del : ∀ y, pCurDel' = some y → y ∈ t'.del) :
    Departed overlaid'.overlay d key pCur pCurIns pCurDel' := by
  refine ⟨fun y there => ?_, fun x live later => ?_, ?_, del, fun flag => ?_⟩
  · obtain ⟨inside, later⟩ := departed.shared y there
    exact ⟨(Finset.ext_iff.1 agree.shared y).2 inside, later⟩
  · exact departed.notPast x ((agree.live later).1 live) later
  · exact departed.ins.trans agree.step_ins.symm
  · exact departed.cleared (agree.deleteAll.symm.trans flag)

end

/-- The rows of the view. -/
theorem shows_iff (overlaid : t.Overlaid) {row : Row α Data} :
    t.Shows row ↔ ∃ visit, overlaid.overlay.Shows visit ∧ t.row visit = row := by
  obtain ⟨use, key, data⟩ := row
  constructor
  · intro shown
    refine ⟨⟨use, key⟩, ?_⟩
    cases use <;> exact ⟨shown.1, by simp only [TableTrees.row, ← shown.2]⟩
  · rintro ⟨⟨use', key'⟩, shown, same⟩
    cases use' <;> cases same <;> exact ⟨shown, rfl⟩

/-- Fewer rows are left after the next one. -/
theorem AgreeAfter.shrinks {next : α}
    (agree : t.AgreeAfter t' d key) (inside : next ∈ t'.view) (later : d.lt key next) :
    (t'.view.filter (d.lt next)).card < (t.view.filter (d.lt key)).card := by
  apply Finset.card_lt_card
  rw [Finset.ssubset_iff_of_subset]
  · refine ⟨next, Finset.mem_filter.2 ⟨(agree.view later).1 inside, later⟩, fun beyond => ?_⟩
    exact Dir.irrefl d next (Finset.mem_filter.1 beyond).2
  · intro x member
    obtain ⟨within, beyond⟩ := Finset.mem_filter.1 member
    have after := Dir.trans later beyond
    exact Finset.mem_filter.2 ⟨(agree.view after).1 within, after⟩

end TableTrees

section Runs

variable {t : TableTrees α Data} {d : Dir} {key : α}

omit [LinearOrder α] in
/-- The row shown is the entry's. -/
theorem RowCursor.current_ofBt (b : BtCursor α) (t : TableTrees α Data) :
    (RowCursor.ofBt b).current t = b.current.map t.row := by
  unfold RowCursor.current RowCursor.ofBt BtCursor.current
  cases b.state with
  | useShared =>
    simp only [reduceCtorEq, decide_false, Bool.false_eq_true, if_false, Option.map_map]
    rfl
  | useTrans =>
    simp only [decide_true, if_true, Position.entry_ofOption, Option.map_map]
    rfl

/-- A step leaves what comes later, changes a chosen row, and takes the cursor to the next. -/
structure StepRight (chosen : Finset α) (d : Dir) (result : α → Option Data)
    (Inv : TableTrees α Data → BtCursor α → α → Prop) (t : TableTrees α Data) (key : α)
    (changed : TableTrees α Data × RowCursor α) : Prop where
  overlaid : changed.1.Overlaid
  agree : t.AgreeAfter changed.1 d key
  effect : changed.1.lookup = if key ∈ chosen then update t.lookup key (result key) else t.lookup
  outcome : Outcome changed.1 d (d.lt key) (Inv changed.1)
    (sqlite3BtreeAdvanceAll changed.1 d changed.2)

variable {change : RowChange α Data} {chosen : Finset α} {result : α → Option Data}
  {Inv : TableTrees α Data → BtCursor α → α → Prop}

/-- The view when the rows from `key` on were visited. -/
def ChangedFrom (chosen : Finset α) (result : α → Option Data) (P : α → Prop) [DecidablePred P]
    (t after : TableTrees α Data) : Prop :=
  ∀ x, after.lookup x = if x ∈ chosen ∧ x ∈ t.view ∧ P x then result x else t.lookup x

/-- A step followed by the rest. -/
theorem StepRight.changed_cons {changed : TableTrees α Data × RowCursor α} {Q : α → Prop}
    [DecidablePred Q] {after : TableTrees α Data}
    (step : StepRight chosen d result Inv t key changed) (inView : key ∈ t.view)
    (rest : ChangedFrom chosen result Q changed.1 after)
    (split : ∀ x ∈ changed.1.view, d.lt key x → Q x) (later : ∀ x, Q x → d.lt key x) :
    ChangedFrom chosen result (fun x => ¬ d.lt x key) t after := by
  intro x
  rw [rest x, step.effect]
  by_cases same : x = key
  · subst same
    have notLater : ¬ Q x := fun wanted => Dir.irrefl d x (later x wanted)
    by_cases picked : x ∈ chosen <;> simp [picked, notLater, inView]
  · have elsewhere : (if key ∈ chosen then update t.lookup key (result key) else t.lookup) x =
        t.lookup x := by
      split_ifs
      · exact update_of_ne same _ _
      · rfl
    rw [elsewhere]
    refine if_congr (and_congr_right fun _ => ?_) rfl rfl
    rcases Dir.lt_or_gt (d := d) same with before | after
    · have notLater : ¬ Q x := fun wanted => Dir.asymm before (later x wanted)
      simp [notLater, before]
    · rw [step.agree.view after]
      have notBefore : ¬ d.lt x key := Dir.asymm after
      exact and_congr_right fun inside =>
        iff_of_true (split x ((step.agree.view after).2 inside) after) notBefore

variable (stands : ∀ t b key, Inv t b key → ∃ overlaid : t.Overlaid, Standing overlaid.overlay d b key)
  (steps : ∀ t b key, Inv t b key → StepRight chosen d result Inv t key
    (changeIfChosen change chosen t (.ofBt b) key))

include stands steps

/-- If every step is right, the rest of the view is visited. -/
theorem changingLoop_right (size : Nat) :
    ∀ (t : TableTrees α Data) (b : BtCursor α) (key : α), Inv t b key →
      (t.view.filter (d.lt key)).card ≤ size →
      ∃ (overlaid : t.Overlaid) (visits : List (Visit α)) (after : TableTrees α Data),
        (∀ limit, size < limit →
          changingLoop change chosen d limit t (.ofBt b) = some (visits.map t.row, after)) ∧
        Lists overlaid.overlay d (fun x => ¬ d.lt x key) visits ∧
        ChangedFrom chosen result (fun x => ¬ d.lt x key) t after := by
  -- The induction is on a bound for the number of rows after the current one.
  induction size using Nat.strong_induction_on with
  | h size ih =>
    intro t b key inv bound
    obtain ⟨overlaid, standing⟩ := stands t b key inv
    have step := steps t b key inv
    have inView : key ∈ t.view := TableTrees.mem_view.2 standing.shown.mem
    have current : (RowCursor.ofBt b).current t = some (t.row ⟨b.state, key⟩) := by
      rw [RowCursor.current_ofBt, standing.lead]
      rfl
    -- Each round of the loop shows the row, changes it and advances.
    have round : ∀ limit, changingLoop change chosen d (limit + 1) t (.ofBt b) =
        let changed := changeIfChosen change chosen t (.ofBt b) key
        match sqlite3BtreeAdvanceAll changed.1 d changed.2 with
        | (c, .ok) => (changingLoop change chosen d limit changed.1 c).map fun rest =>
            (t.row ⟨b.state, key⟩ :: rest.1, rest.2)
        | _ => some ([t.row ⟨b.state, key⟩], changed.1) := by
      intro limit
      rw [changingLoop, current]
      simp only [TableTrees.row_key]
    generalize changeIfChosen change chosen t (.ofBt b) key = changed at step round
    obtain ⟨t', c'⟩ := changed
    dsimp only at round
    have outcome := step.outcome
    dsimp only at outcome
    generalize sqlite3BtreeAdvanceAll t' d c' = result at outcome round
    have first : ∀ x, x ∈ overlaid.overlay.live ∨ x ∈ overlaid.overlay.ins →
        (¬ d.lt x key ∧ x ≠ key ↔ d.lt key x) := fun _ _ => Dir.not_lt_and_ne_iff
    cases outcome with
    | done c nothing =>
      refine ⟨overlaid, [⟨b.state, key⟩], t', ?_, ?_, ?_⟩
      · intro limit more
        obtain ⟨limit, rfl⟩ : ∃ left, limit = left + 1 := ⟨limit - 1, by omega⟩
        exact round limit
      · refine lists_cons standing.shown (Dir.irrefl d key) (lists_nil ?_) first
          fun x after => after
        intro x member later
        exact nothing x ((step.agree.view later).2 (TableTrees.mem_view.2 member)) later
      · refine step.changed_cons (Q := d.lt key) inView (fun x => ?_) (fun x _ later => later)
          fun x later => later
        refine (if_neg ?_).symm
        rintro ⟨-, inside, later⟩
        exact nothing x inside later
    | next b' next inv' later least =>
      obtain ⟨overlaid', standing'⟩ := stands t' b' next inv'
      have shrinks : (t'.view.filter (d.lt next)).card < (t.view.filter (d.lt key)).card :=
        step.agree.shrinks (TableTrees.mem_view.2 standing'.shown.mem) later
      obtain ⟨_, visits, after, ends, lists, changes⟩ :=
        ih (size - 1) (by omega) t' b' next inv' (by omega)
      have beyond : ∀ x, ¬ d.lt x next → d.lt key x := fun x notBefore =>
        Dir.lt_of_lt_of_not_lt later notBefore
      refine ⟨overlaid, ⟨b.state, key⟩ :: visits, after, ?_, ?_, ?_⟩
      · intro limit more
        obtain ⟨limit, rfl⟩ : ∃ left, limit = left + 1 := ⟨limit - 1, by omega⟩
        have same : visits.map t'.row = visits.map t.row :=
          List.map_congr_left fun visit member =>
            step.agree.row (beyond visit.key ((lists.2 visit).1 member).2)
        rw [round limit]
        dsimp only
        rw [ends limit (by omega), same]
        rfl
      · refine lists_cons standing.shown (Dir.irrefl d key)
          (step.agree.lists overlaid overlaid' beyond lists) ?_ beyond
        intro x inView
        rw [first x inView]
        refine ⟨fun after => ?_, beyond x⟩
        exact least x ((step.agree.view after).2 (TableTrees.mem_view.2 inView)) after
      · exact step.changed_cons inView changes (fun x inside after => least x inside after) beyond

variable (change chosen result Inv)

/-- If every step is right, a scan visits the rows of the view at its start, in order and each once,
and ends with the chosen rows changed and the others as they were. -/
theorem changingScan_right (overlaid : t.Overlaid) (c : RowCursor α)
    (starts : ∀ b key, Standing overlaid.overlay d b key → Ready overlaid.overlay d b key →
      (∀ x ∈ t.view, ¬ d.lt x key) → Inv t b key) :
    ∃ rows after, (∀ limit, t.view.card ≤ limit →
        changingScan change chosen d limit t c = some (rows, after)) ∧
      rows.Pairwise (fun a b => d.lt a.key b.key) ∧ (∀ row, row ∈ rows ↔ t.Shows row) ∧
      ∀ x, after.lookup x = if x ∈ chosen ∧ x ∈ t.view then result x else t.lookup x := by
  have outcome := sqlite3BtreeFirstAll_outcome (d := d) overlaid c
  unfold changingScan
  generalize sqlite3BtreeFirstAll t d c = start at outcome
  cases outcome with
  | done c' nothing =>
    have empty : ∀ x, x ∉ t.view := fun x inside => nothing x inside trivial
    refine ⟨[], t, fun _ _ => rfl, List.Pairwise.nil, fun row => ?_, fun x => ?_⟩
    · rw [t.shows_iff overlaid]
      refine iff_of_false (List.not_mem_nil) ?_
      rintro ⟨visit, shown, -⟩
      exact empty visit.key (TableTrees.mem_view.2 shown.mem)
    · simp [empty x]
  | next b key holds _ least =>
    have first : ∀ x ∈ t.view, ¬ d.lt x key := fun x inside => least x inside trivial
    have inside : key ∈ t.view := TableTrees.mem_view.2 holds.1.shown.mem
    have fewer : (t.view.filter (d.lt key)).card < t.view.card :=
      Finset.card_lt_card (Finset.filter_ssubset.2 ⟨key, inside, Dir.irrefl d key⟩)
    obtain ⟨_, visits, after, ends, lists, changes⟩ := changingLoop_right stands steps
      (t.view.filter (d.lt key)).card t b key (starts b key holds.1 holds.2 first) le_rfl
    refine ⟨visits.map t.row, after, fun limit more => ends limit (by omega), ?_, fun row => ?_,
      fun x => ?_⟩
    · rw [List.pairwise_map]
      simpa only [TableTrees.row_key] using lists.1
    · rw [t.shows_iff overlaid, List.mem_map]
      refine exists_congr fun visit => and_congr_left fun _ => ?_
      rw [lists.2 visit]
      exact and_iff_left_of_imp fun shown => first visit.key (TableTrees.mem_view.2 shown.mem)
    · rw [changes x]
      refine if_congr (and_congr_right fun _ => ?_) rfl rfl
      exact and_iff_left_of_imp (first x)

end Runs

end SQLumDash.Change
