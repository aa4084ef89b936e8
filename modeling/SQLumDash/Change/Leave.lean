import SQLumDash.Change.Rows

/-!
# Leaving a row

The cursor first leaves the row it stands on, which depends on what was done to the row, and then
skips deleted entries and chooses the tree that leads. After the first part the positions are the
same whatever was done, except in the deletion tree.
-/

namespace SQLumDash.Change

open OrderedCursor Scan

variable {α Data : Type*} [LinearOrder α]

/-- The cursor of a scan that has changed nothing. -/
def RowCursor.ofBt (b : BtCursor α) : RowCursor α where
  pCur := b.pCur
  pCurIns := .ofOption b.pCurIns
  pCurDel := b.pCurDel
  sharedIsUsed := b.state = .useShared
  transIsUsed := b.state = .useTrans

/-- While the shared tree leads, the insertion cursor is not before it. -/
theorem not_lt_of_leader {d : Dir} {key i : α}
    (led : leader d (some key) (some i) = some .useShared) : ¬ d.lt i key := by
  rcases leader_cases d (some key) (some i) with ⟨-, ⟨⟩, -⟩ | ⟨_, -, ⟨⟩, first⟩ | ⟨_, led', -⟩
  · exact first i rfl
  · rw [led] at led'
    cases led'

/-- While the insertion tree leads, the shared cursor is after it. -/
theorem lt_of_leader {d : Dir} {y key : α} (led : leader d (some y) (some key) = some .useTrans) :
    d.lt key y := by
  rcases leader_cases d (some y) (some key) with ⟨-, ⟨⟩, -⟩ | ⟨_, led', -⟩ | ⟨_, -, ⟨⟩, first⟩
  · rw [led] at led'
    cases led'
  · exact first y rfl

variable {b : BtCursor α}

omit [LinearOrder α] in
/-- The shared cursor shows the row. -/
theorem pCur_eq_of_current {key : α} (lead : b.current = some ⟨b.state, key⟩)
    (state : b.state = .useShared) : b.pCur = some key := by
  simp only [BtCursor.current, state, Option.map_eq_some_iff] at lead
  obtain ⟨x, there, same⟩ := lead
  cases same
  exact there

omit [LinearOrder α] in
/-- The insertion cursor shows the row. -/
theorem pCurIns_eq_of_current {key : α} (lead : b.current = some ⟨b.state, key⟩)
    (state : b.state = .useTrans) : b.pCurIns = some key := by
  simp only [BtCursor.current, state, Option.map_eq_some_iff] at lead
  obtain ⟨x, there, same⟩ := lead
  cases same
  exact there

section Positions

variable {ov : Overlay α} {d : Dir} {b : BtCursor α} {key : α} {pCur pCurIns pCurDel : Option α}

/-- The cursor shows the entry `key` and has passed nothing of the view to come. -/
structure Standing (ov : Overlay α) (d : Dir) (b : BtCursor α) (key : α) : Prop where
  placed : Placed ov b
  lead : b.current = some ⟨b.state, key⟩
  shown : ov.Shows ⟨b.state, key⟩
  notPastIns : ∀ x ∈ ov.ins, d.lt key x → NotPast d b.pCurIns x
  notPastLive : ∀ x ∈ ov.live, d.lt key x → NotPast d b.pCur x
  cleared : ov.deleteAll = true → b.pCur = none
  led : leader d b.pCur b.pCurIns = some b.state

/-- Deleted entries still to be met are not passed. -/
def Ready (ov : Overlay α) (d : Dir) (b : BtCursor α) (key : α) : Prop :=
  ∀ y, b.pCur = some y → ∀ x ∈ ov.del, ¬ d.lt x key → ¬ d.lt x y → NotPast d b.pCurDel x

/-- With the deletion cursor right, the scan is undisturbed. -/
theorem Standing.of_at (at_ : At ov d b key) (led : leader d b.pCur b.pCurIns = some b.state) :
    Standing ov d b key ∧ Ready ov d b key :=
  ⟨⟨at_.placed, at_.lead, at_.shown, at_.notPastIns, at_.notPastLive, at_.cleared, led⟩,
    at_.notPastDel⟩

section

variable (stands : Standing ov d b key)

include stands

/-- The shared cursor stands on the key. -/
theorem Standing.pCur_eq (state : b.state = .useShared) :
    b.pCur = some key := pCur_eq_of_current stands.lead state

/-- The insertion cursor stands on the key. -/
theorem Standing.pCurIns_eq (state : b.state = .useTrans) :
    b.pCurIns = some key := pCurIns_eq_of_current stands.lead state

/-- The key is a live shared one. -/
theorem Standing.mem_live (state : b.state = .useShared) : key ∈ ov.live := by
  have shown := stands.shown
  rw [state] at shown
  exact shown

/-- The key is an inserted one. -/
theorem Standing.mem_ins (state : b.state = .useTrans) : key ∈ ov.ins := by
  have shown := stands.shown
  rw [state] at shown
  exact shown

/-- The insertion cursor is past a shared key. -/
theorem Standing.ins_later (state : b.state = .useShared) {i : α} (there : b.pCurIns = some i) :
    d.lt key i := by
  have led := stands.led
  rw [stands.pCur_eq state, there, state] at led
  have apart : i ≠ key := by
    rintro rfl
    exact Overlay.not_mem_ins_of_live (stands.mem_live state) (stands.placed.ins i there)
  exact Dir.lt_of_not_lt_of_ne (not_lt_of_leader led) apart

/-- The shared cursor is past an inserted key. -/
theorem Standing.shared_later (state : b.state = .useTrans) {y : α} (there : b.pCur = some y) :
    d.lt key y := by
  have led := stands.led
  rw [stands.pCurIns_eq state, there, state] at led
  exact lt_of_leader led

end

/-- The positions after leaving `key`, before deleted entries are skipped. -/
structure Departed (ov : Overlay α) (d : Dir) (key : α) (pCur pCurIns pCurDel : Option α) :
    Prop where
  shared : ∀ y, pCur = some y → y ∈ ov.shared ∧ d.lt key y
  notPast : ∀ x ∈ ov.live, d.lt key x → NotPast d pCur x
  ins : pCurIns = first d (ov.ins.filter (d.lt key))
  del : ∀ y, pCurDel = some y → y ∈ ov.del
  cleared : ov.deleteAll = true → pCur = none

/-- Not all rows are deleted. -/
theorem Departed.kept (departed : Departed ov d key pCur pCurIns pCurDel) {y : α}
    (there : pCur = some y) : ov.deleteAll = false := by
  cases flag : ov.deleteAll with
  | false => rfl
  | true =>
    rw [departed.cleared flag] at there
    cases there

/-- Leaving a row of the shared tree. -/
theorem Standing.departs_shared (stands : Standing ov d b key) (state : b.state = .useShared) :
    Departed ov d key (step d ov.shared key) b.pCurIns b.pCurDel := by
  have live := stands.mem_live state
  refine ⟨fun y moved => (step_eq_some_iff.1 moved).1, fun x inside later => ?_, ?_,
    stands.placed.del, fun flag => ?_⟩
  · exact notPast_step (Overlay.live_subset inside) later
  · cases there : b.pCurIns with
    | none =>
      symm
      rw [first_eq_none_iff]
      intro x member
      obtain ⟨inside, later⟩ := Finset.mem_filter.1 member
      obtain ⟨y, at_, -⟩ := stands.notPastIns x inside later
      rw [there] at at_
      cases at_
    | some i =>
      have later := stands.ins_later state there
      symm
      refine first_eq_some_iff.2 ⟨Finset.mem_filter.2 ⟨stands.placed.ins i there, later⟩, ?_⟩
      intro x member
      obtain ⟨inside, after⟩ := Finset.mem_filter.1 member
      obtain ⟨y, at_, notPast⟩ := stands.notPastIns x inside after
      rw [there] at at_
      cases at_
      exact notPast
  · rw [Overlay.kept_of_live live] at flag
    cases flag

/-- Leaving a row of the insertion tree. -/
theorem Standing.departs_trans (stands : Standing ov d b key) (state : b.state = .useTrans) :
    Departed ov d key b.pCur (step d ov.ins key) b.pCurDel :=
  ⟨fun y there => ⟨stands.placed.shared y there, stands.shared_later state there⟩,
    stands.notPastLive, rfl, stands.placed.del, stands.cleared⟩

/-- Skipping passes no live entry. -/
theorem Departed.skip (fuel : Nat) :
    ∀ {pCur pCurDel : Option α}, Departed ov d key pCur pCurIns pCurDel →
      Departed ov d key (seekToExistLoop d ov.shared ov.del fuel pCur pCurDel).1 pCurIns
        (seekToExistLoop d ov.shared ov.del fuel pCur pCurDel).2 := by
  induction fuel with
  | zero => exact fun departed => departed
  | succ fuel ih =>
    intro pCur pCurDel departed
    cases pCur with
    | none => exact departed
    | some y =>
      cases pCurDel with
      | none => exact departed
      | some x =>
        have deleted := departed.del x rfl
        obtain ⟨shared, later⟩ := departed.shared y rfl
        unfold seekToExistLoop
        split_ifs with lags same
        · apply ih
          exact ⟨departed.shared, departed.notPast, departed.ins,
            fun z moved => (step_eq_some_iff.1 moved).1.1, departed.cleared⟩
        · subst same
          apply ih
          refine ⟨fun z moved => ?_, fun z live after => ?_, departed.ins, departed.del, ?_⟩
          · obtain ⟨⟨inside, beyond⟩, -⟩ := step_eq_some_iff.1 moved
            exact ⟨inside, Dir.trans later beyond⟩
          · obtain ⟨w, at_, notPast⟩ := departed.notPast z live after
            cases at_
            have apart : y ≠ z := by
              rintro rfl
              exact Overlay.not_mem_del_of_live live deleted
            exact notPast_step (Overlay.live_subset live)
              (Dir.lt_of_not_lt_of_ne notPast apart.symm)
          · intro flag
            rw [departed.kept rfl] at flag
            cases flag
        · exact departed

section

variable (departed : Departed ov d key b.pCur b.pCurIns b.pCurDel)

include departed

/-- With the deletion cursor right it ends on the next. -/
theorem Departed.advanced
    (ready : ∀ y, b.pCur = some y → ∀ x ∈ ov.del, ¬ d.lt x y → NotPast d b.pCurDel x) :
    Advanced ov d (d.lt key) (btreeSeekToExist ov d b) := by
  have approach : Approaching ov d (d.lt key) b.pCur b.pCurDel := by
    refine ⟨fun y there => (departed.shared y there).1, departed.del, fun y there x _ notBefore => ?_,
      departed.notPast, ready, departed.cleared⟩
    exact Dir.lt_of_lt_of_not_lt (departed.shared y there).2 notBefore
  have skipped := approach.skip
  exact ⟨skipped.shared, skipped.ins.trans departed.ins, skipped.del, skipped.notPastDel⟩

/-- An entry chosen after a row was left. -/
theorem Departed.standing {use : CursorUse} {next : α}
    (lead : BtCursor.current { b with state := use } = some ⟨use, next⟩)
    (shown : ov.Shows ⟨use, next⟩) (later : d.lt key next)
    (led : leader d b.pCur b.pCurIns = some use) : Standing ov d { b with state := use } next := by
  refine ⟨⟨fun x there => (departed.shared x there).1, fun x there => ?_, departed.del⟩, lead, shown,
    fun x inside after => ?_, fun x live after => ?_, departed.cleared, led⟩
  · have found := first_eq_some_iff.1 (departed.ins.symm.trans there)
    exact (Finset.mem_filter.1 found.1).1
  · exact notPast_of_first departed.ins inside (Dir.trans later after)
  · exact departed.notPast x live (Dir.trans later after)

/-- The choice is right where an inserted entry comes before every deleted one. -/
theorem Departed.choose (pending : ∀ y ∈ ov.del, d.lt key y → ∃ k ∈ ov.ins, d.lt key k ∧ d.lt k y) :
    match leader d b.pCur b.pCurIns with
    | none => ∀ x, x ∈ ov.live ∨ x ∈ ov.ins → ¬ d.lt key x
    | some use => ∃ next, Standing ov d { b with state := use } next ∧ d.lt key next ∧
        ∀ x, x ∈ ov.live ∨ x ∈ ov.ins → d.lt key x → ¬ d.lt x next := by
  rcases leader_least departed.notPast (fun _ => notPast_of_first departed.ins) with
    ⟨led, none⟩ | ⟨next, led, there, least⟩ | ⟨next, led, there, least⟩
  · rw [led]
    exact none
  · -- A shared entry that leads is not deleted, since an inserted one would come before it.
    obtain ⟨shared, later⟩ := departed.shared next there
    have live : next ∈ ov.live := by
      refine (Overlay.mem_live (departed.kept there)).2 ⟨shared, fun deleted => ?_⟩
      obtain ⟨k, inserted, after, before⟩ := pending next deleted later
      exact least k (.inr inserted) after before
    rw [led]
    refine ⟨next, departed.standing ?_ live later led, later, least⟩
    simp only [BtCursor.current, there, Option.map_some]
  · obtain ⟨⟨inserted, later⟩, -⟩ := step_eq_some_iff.1 (departed.ins.symm.trans there)
    rw [led]
    refine ⟨next, departed.standing ?_ inserted later led, later, least⟩
    simp only [BtCursor.current, there, Option.map_some]

end

end Positions

section Outcomes

variable {t : TableTrees α Data} {d : Dir} {key : α}

/-- Nothing of the view with `Q` is left, or the cursor stands on the first such entry, with `P`. -/
inductive Outcome (t : TableTrees α Data) (d : Dir) (Q : α → Prop) (P : BtCursor α → α → Prop) :
    RowCursor α × Rc → Prop
  | done (c : RowCursor α) (nothing : ∀ x ∈ t.view, ¬ Q x) : Outcome t d Q P (c, .done)
  | next (b : BtCursor α) (key : α) (holds : P b key) (wanted : Q key)
      (least : ∀ x ∈ t.view, Q x → ¬ d.lt x key) : Outcome t d Q P (.ofBt b, .ok)

/-- A weaker property of the next entry. -/
theorem Outcome.imp {Q : α → Prop} {P P' : BtCursor α → α → Prop} {result : RowCursor α × Rc}
    (outcome : Outcome t d Q P result)
    (weaker : ∀ b key, Q key → (∀ x ∈ t.view, Q x → ¬ d.lt x key) → P b key → P' b key) :
    Outcome t d Q P' result := by
  cases outcome with
  | done c nothing => exact .done c nothing
  | next b key holds wanted least =>
    exact .next b key (weaker b key wanted least holds) wanted least

section

variable (overlaid : t.Overlaid)

include overlaid

variable {c : RowCursor α}

/-- The second part of an advance, by the tree that leads. -/
theorem btreeSeekToExistAll_eq (b : BtCursor α) (pCur : c.pCur = b.pCur)
    (pCurIns : c.pCurIns = .ofOption b.pCurIns) (pCurDel : c.pCurDel = b.pCurDel) :
    let b' := btreeSeekToExist overlaid.overlay d b
    match leader d b'.pCur b'.pCurIns with
    | none => ∃ c', btreeSeekToExistAll t d c = (c', .done)
    | some use => btreeSeekToExistAll t d c = (.ofBt { b' with state := use }, .ok) := by
  intro b'
  have moved : (b'.pCur, b'.pCurDel) =
      seekToExistLoop d t.shared t.del (t.shared.card + t.del.card + 1) c.pCur c.pCurDel := by
    rw [pCur, pCurDel]
    rfl
  unfold btreeSeekToExistAll
  simp only [← moved, pCurIns, Position.entry_ofOption]
  have ins : b'.pCurIns = b.pCurIns := rfl
  rw [← ins]
  cases leader d b'.pCur b'.pCurIns with
  | none => exact ⟨_, rfl⟩
  | some use => rfl

/-- Settled positions are those of an undisturbed scan. -/
theorem Outcome.of_advanced {Q : α → Prop} [DecidablePred Q] (upward : ∀ x y, Q x → d.lt x y → Q y)
    (advanced : Advanced overlaid.overlay d Q (btreeSeekToExist overlaid.overlay d b))
    (pCur : c.pCur = b.pCur) (pCurIns : c.pCurIns = .ofOption b.pCurIns)
    (pCurDel : c.pCurDel = b.pCurDel) :
    Outcome t d Q (fun b key => Standing overlaid.overlay d b key ∧ Ready overlaid.overlay d b key)
      (btreeSeekToExistAll t d c) := by
  have result := btreeSeekToExistAll_eq (d := d) overlaid b pCur pCurIns pCurDel
  have chosen := advanced.choose upward
  cases led : leader d (btreeSeekToExist overlaid.overlay d b).pCur
      (btreeSeekToExist overlaid.overlay d b).pCurIns with
  | none =>
    simp only [led] at result chosen
    obtain ⟨c', result⟩ := result
    rw [result]
    exact .done c' fun x inView => chosen x (Overlay.mem_view.1 inView)
  | some use =>
    simp only [led] at result chosen
    obtain ⟨key, at_, wanted, least⟩ := chosen
    rw [result]
    exact .next _ key (Standing.of_at at_ led) wanted
      fun x inView => least x (Overlay.mem_view.1 inView)

/-- With the deletion cursor right, the next row follows. -/
theorem Departed.outcome_ready {pCur pCurIns pCurDel : Option α}
    (departed : Departed overlaid.overlay d key pCur pCurIns pCurDel)
    (ready : ∀ y, pCur = some y → ∀ x ∈ t.del, ¬ d.lt x y → NotPast d pCurDel x)
    (sameCur : c.pCur = pCur) (sameIns : c.pCurIns = .ofOption pCurIns)
    (sameDel : c.pCurDel = pCurDel) : Outcome t d (d.lt key)
      (fun b next => Standing overlaid.overlay d b next ∧ Ready overlaid.overlay d b next)
      (btreeSeekToExistAll t d c) := by
  let b : BtCursor α := ⟨pCur, pCurIns, pCurDel, .useShared⟩
  have advanced := Departed.advanced (b := b) departed ready
  exact .of_advanced overlaid (fun _ _ => Dir.trans) advanced sameCur sameIns sameDel

/-- The next row follows where an inserted one comes before every deleted one. -/
theorem Departed.outcome_pending {pCur pCurIns pCurDel : Option α}
    (departed : Departed overlaid.overlay d key pCur pCurIns pCurDel)
    (pending : ∀ y ∈ t.del, d.lt key y → ∃ k ∈ t.ins, d.lt key k ∧ d.lt k y)
    (sameCur : c.pCur = pCur) (sameIns : c.pCurIns = .ofOption pCurIns)
    (sameDel : c.pCurDel = pCurDel) :
    Outcome t d (d.lt key) (fun b next => Standing overlaid.overlay d b next)
      (btreeSeekToExistAll t d c) := by
  let b : BtCursor α := ⟨pCur, pCurIns, pCurDel, .useShared⟩
  let b' := btreeSeekToExist overlaid.overlay d b
  have skipped : Departed overlaid.overlay d key b'.pCur b'.pCurIns b'.pCurDel := departed.skip _
  have chosen := skipped.choose pending
  have result := btreeSeekToExistAll_eq (d := d) overlaid b sameCur sameIns sameDel
  change match leader d b'.pCur b'.pCurIns with
    | none => ∃ c', btreeSeekToExistAll t d c = (c', .done)
    | some use => btreeSeekToExistAll t d c = (.ofBt { b' with state := use }, .ok) at result
  cases led : leader d b'.pCur b'.pCurIns with
  | none =>
    rw [led] at result chosen
    obtain ⟨c', result⟩ := result
    rw [result]
    exact .done c' fun x inView => chosen x (Overlay.mem_view.1 inView)
  | some use =>
    rw [led] at result chosen
    obtain ⟨next, stands, later, least⟩ := chosen
    rw [show btreeSeekToExistAll t d c = _ from result]
    exact .next _ next stands later fun x inView => least x (Overlay.mem_view.1 inView)

/-- The first positioning goes to the first row of the view. -/
theorem sqlite3BtreeFirstAll_outcome (c : RowCursor α) : Outcome t d (fun _ => True)
      (fun b key => Standing overlaid.overlay d b key ∧ Ready overlaid.overlay d b key)
      (sqlite3BtreeFirstAll t d c) := by
  let b : BtCursor α :=
    ⟨if t.deleteAll then none else first d t.shared, first d t.ins, first d t.del, .useShared⟩
  have skipped : SkippedTo overlaid.overlay d (fun _ => True) b
      (btreeSeekToExist overlaid.overlay d b) :=
    Approaching.skip (approach_first overlaid.overlay d)
  have advanced : Advanced overlaid.overlay d (fun _ => True)
      (btreeSeekToExist overlaid.overlay d b) := by
    refine ⟨skipped.shared, ?_, skipped.del, skipped.notPastDel⟩
    rw [skipped.ins, Finset.filter_true]
    rfl
  exact .of_advanced (b := b) overlaid (fun _ _ _ _ => trivial) advanced rfl rfl rfl

end

end Outcomes

section FirstPart

variable {t : TableTrees α Data} {d : Dir} {key : α} {c : RowCursor α}

/-- Leaving a shared row. -/
theorem sqlite3BtreeAdvanceAll_shared (shared : c.sharedIsUsed = true) (trans : c.transIsUsed = false)
    (there : c.pCur = some key) (caughtUp : ∀ i, c.pCurIns = .valid i → ¬ d.lt i key) :
    sqlite3BtreeAdvanceAll t d c =
      btreeSeekToExistAll t d { c with pCur := step d t.shared key } := by
  have waits : catchUp t d c = c := by
    obtain ⟨pCur, pCurIns, pCurDel, _, _⟩ := c
    subst shared there
    cases pCurIns with
    | valid i => simp [catchUp, catchUpLoop, caughtUp i rfl, Position.ofOption]
    | requireSeek i | invalid => rfl
  unfold sqlite3BtreeAdvanceAll
  simp [waits, shared, trans, there, advance]

/-- Leaving an inserted row, deleted or not. -/
theorem sqlite3BtreeAdvanceAll_trans (shared : c.sharedIsUsed = false) (trans : c.transIsUsed = true)
    (there : c.pCurIns = .valid key ∨ c.pCurIns = .requireSeek key)
    (caughtUp : ∀ y, c.pCur = some y → ¬ d.lt y key) :
    sqlite3BtreeAdvanceAll t d c =
      btreeSeekToExistAll t d { c with pCurIns := .ofOption (step d t.ins key) } := by
  have waits : catchUp t d c = c := by
    obtain ⟨pCur, pCurIns, pCurDel, _, _⟩ := c
    subst shared trans
    rcases there with rfl | rfl
    · cases pCur with
      | none => rfl
      | some y => simp [catchUp, catchUpLoop, caughtUp y rfl, Position.ofOption]
    · rfl
  unfold sqlite3BtreeAdvanceAll
  simp only [waits, shared, trans, Bool.false_eq_true, if_false, if_true]
  rcases there with there | there <;> rw [there] <;> rfl

/-- Leaving a shared row that was just updated. -/
theorem sqlite3BtreeAdvanceAll_both (shared : c.sharedIsUsed = true) (trans : c.transIsUsed = true)
    (there : c.pCur = some key) (inserted : c.pCurIns = .valid key) :
    sqlite3BtreeAdvanceAll t d c =
      btreeSeekToExistAll t d
        { c with pCur := step d t.shared key, pCurIns := .ofOption (step d t.ins key) } := by
  have waits : catchUp t d c = c := by
    obtain ⟨pCur, pCurIns, pCurDel, _, _⟩ := c
    subst shared there inserted
    simp [catchUp, catchUpLoop, Position.ofOption]
  unfold sqlite3BtreeAdvanceAll
  simp [waits, shared, trans, there, inserted, advance, Position.advance]

/-- A scan that changed nothing leaves the row. -/
theorem Standing.leaves {overlaid : t.Overlaid} (stands : Standing overlaid.overlay d b key) :
    ∃ b', Departed overlaid.overlay d key b'.pCur b'.pCurIns b'.pCurDel ∧
      (Ready overlaid.overlay d b key → ∀ y, b'.pCur = some y → ∀ x ∈ t.del, ¬ d.lt x y →
        NotPast d b'.pCurDel x) ∧
      sqlite3BtreeAdvanceAll t d (.ofBt b) = btreeSeekToExistAll t d (.ofBt b') := by
  cases state : b.state with
  | useShared =>
    have there := stands.pCur_eq state
    refine ⟨{ b with pCur := step d t.shared key }, stands.departs_shared state, ?_, ?_⟩
    · intro ready y moved x deleted notBefore
      have later := Dir.lt_of_lt_of_not_lt (step_eq_some_iff.1 moved).1.2 notBefore
      exact ready key there x deleted (Dir.asymm later) (Dir.asymm later)
    · apply sqlite3BtreeAdvanceAll_shared (by simp [RowCursor.ofBt, state])
        (by simp [RowCursor.ofBt, state]) there
      intro i position
      exact Dir.asymm (stands.ins_later state (Position.ofOption_eq_valid.1 position))
  | useTrans =>
    have there := stands.pCurIns_eq state
    refine ⟨{ b with pCurIns := step d t.ins key }, stands.departs_trans state, ?_, ?_⟩
    · intro ready y position x deleted notBefore
      have later := Dir.lt_of_lt_of_not_lt (stands.shared_later state position) notBefore
      exact ready y position x deleted (Dir.asymm later) notBefore
    · apply sqlite3BtreeAdvanceAll_trans (by simp [RowCursor.ofBt, state])
        (by simp [RowCursor.ofBt, state]) (.inl (Position.ofOption_eq_valid.2 there))
      exact fun y position => Dir.asymm (stands.shared_later state position)

/-- An undisturbed scan goes to the next row. -/
theorem Standing.outcome_ready {overlaid : t.Overlaid} (stands : Standing overlaid.overlay d b key)
    (ready : Ready overlaid.overlay d b key) : Outcome t d (d.lt key)
      (fun b next => Standing overlaid.overlay d b next ∧ Ready overlaid.overlay d b next)
      (sqlite3BtreeAdvanceAll t d (.ofBt b)) := by
  obtain ⟨b', departed, notPast, advanced⟩ := stands.leaves
  rw [advanced]
  exact departed.outcome_ready overlaid (notPast ready) rfl rfl rfl

/-- So it does where an inserted row comes before every deleted one. -/
theorem Standing.outcome_pending {overlaid : t.Overlaid}
    (stands : Standing overlaid.overlay d b key)
    (pending : ∀ y ∈ t.del, d.lt key y → ∃ k ∈ t.ins, d.lt key k ∧ d.lt k y) :
    Outcome t d (d.lt key) (fun b next => Standing overlaid.overlay d b next)
      (sqlite3BtreeAdvanceAll t d (.ofBt b)) := by
  obtain ⟨b', departed, -, advanced⟩ := stands.leaves
  rw [advanced]
  exact departed.outcome_pending overlaid pending rfl rfl rfl

end FirstPart

end SQLumDash.Change
