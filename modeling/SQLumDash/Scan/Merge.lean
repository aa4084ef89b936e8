import SQLumDash.Scan.Cursor

/-!
# Merging the three trees

A cursor that stands on an entry of the view, with the other positions not past anything
that is still to come, moves to the next entry of the view. From there on a scan shows
the rest of the view in order.
-/

namespace SQLumDash.Scan

open OrderedCursor
open Dir (irrefl asymm lt_of_lt_of_not_lt lt_of_not_lt_of_ne not_lt_trans)
open Finset (notMem_empty mem_sdiff mem_filter card_lt_card card_filter_le card_le_card)

variable {α : Type*} [LinearOrder α]

namespace Overlay

variable (ov : Overlay α)

/-- The shared entries the transaction still sees. -/
def live : Finset α := if ov.deleteAll then ∅ else ov.shared \ ov.del

/-- The view: live shared entries, read from the shared tree, and inserted ones. -/
def Shows (visit : Visit α) : Prop :=
  match visit.use with
  | .useShared => visit.key ∈ ov.live
  | .useTrans => visit.key ∈ ov.ins

variable {ov} {x : α}

/-- Live entries are shared. -/
theorem live_subset : ov.live ⊆ ov.shared := by
  unfold live
  split_ifs
  · exact Finset.empty_subset _
  · exact Finset.sdiff_subset

/-- Without a delete-all the live entries are those not deleted. -/
theorem mem_live (kept : ov.deleteAll = false) : x ∈ ov.live ↔ x ∈ ov.shared ∧ x ∉ ov.del := by
  simp only [live, kept, Bool.false_eq_true, if_false, mem_sdiff]

/-- With all rows deleted the shared cursor stands nowhere. -/
theorem kept_of_cleared {pCur : Option α} (cleared : ov.deleteAll = true → pCur = none)
    (there : pCur = some x) : ov.deleteAll = false := by
  cases flag : ov.deleteAll with
  | false => rfl
  | true => cases there.symm.trans (cleared flag)

section

variable (member : x ∈ ov.live)

include member

/-- After a delete-all nothing is live. -/
theorem kept_of_live : ov.deleteAll = false := by
  cases flag : ov.deleteAll with
  | false => rfl
  | true =>
    simp only [live, flag, if_true] at member
    exact absurd member (notMem_empty x)

/-- A live entry is not inserted. -/
theorem not_mem_ins_of_live : x ∉ ov.ins := by
  intro inserted
  have inside := (mem_live (kept_of_live member)).1 member
  exact Finset.disjoint_left.1 ov.ins_disjoint inserted (mem_sdiff.2 inside)

/-- A live entry is not deleted. -/
theorem not_mem_del_of_live : x ∉ ov.del := ((mem_live (kept_of_live member)).1 member).2

/-- A live entry excludes a delete-all. -/
theorem not_deleteAll : ¬ ov.deleteAll = true := by
  rw [kept_of_live member]
  exact Bool.false_ne_true

/-- With a live entry the shared tree is not empty. -/
theorem shared_ne_empty : ov.shared ≠ ∅ :=
  Finset.ne_empty_of_mem (live_subset member)

end

/-- A deleted and a live entry differ. -/
theorem ne_of_del {y : α} (deleted : x ∈ ov.del) (live : y ∈ ov.live) : x ≠ y := by
  rintro rfl
  exact not_mem_del_of_live live deleted

/-- A live and an inserted entry differ. -/
theorem ne_of_ins {y : α} (live : x ∈ ov.live) (inserted : y ∈ ov.ins) : x ≠ y := by
  rintro rfl
  exact not_mem_ins_of_live live inserted

end Overlay

/-- The position `cursor` is not past `x`. -/
def NotPast (d : Dir) (cursor : Option α) (x : α) : Prop := ∃ y, cursor = some y ∧ ¬ d.lt x y

/-- One step from before an entry does not go past it. -/
theorem notPast_step {d : Dir} {t : Finset α} {y x : α} (inside : x ∈ t) (later : d.lt y x) :
    NotPast d (step d t y) x := by
  cases moved : step d t y with
  | none => exact absurd later (step_eq_none_iff.1 moved x inside)
  | some z => exact ⟨z, rfl, (step_eq_some_iff.1 moved).2 x inside later⟩

section SeekToExist

variable {d : Dir} {shared del : Finset α}

/-- The number of entries of a set at or after a position. -/
def ahead (d : Dir) (t : Finset α) : Option α → Nat
  | none => 0
  | some key => (t.filter fun y => ¬ d.lt y key).card

/-- A step leaves less in front. -/
theorem ahead_step_lt {t : Finset α} {key : α} (member : key ∈ t) :
    ahead d t (step d t key) < ahead d t (some key) := by
  have counted : 0 < ahead d t (some key) :=
    Finset.card_pos.2 ⟨key, mem_filter.2 ⟨member, irrefl d key⟩⟩
  cases moved : step d t key with
  | none => exact counted
  | some next =>
    obtain ⟨⟨inside, later⟩, -⟩ := step_eq_some_iff.1 moved
    apply card_lt_card
    rw [Finset.ssubset_iff_of_subset]
    · refine ⟨key, mem_filter.2 ⟨member, irrefl d key⟩, ?_⟩
      simp only [mem_filter, not_and, not_not]
      exact fun _ => later
    · intro y after
      obtain ⟨within, notBefore⟩ := mem_filter.1 after
      exact mem_filter.2 ⟨within, fun before => notBefore (Dir.trans before later)⟩

/-- Skipping deleted entries from a position whose deletion cursor is not past any deleted
entry to come. -/
structure Skipped (d : Dir) (shared del : Finset α) (key : α) (pCurDel : Option α)
    (result : Option α × Option α) : Prop where
  /-- The shared cursor stops at the first entry that is not deleted. -/
  stop : result.1 = first d ((shared \ del).filter fun y => ¬ d.lt y key)
  within : ∀ y, result.2 = some y → y ∈ del
  /-- The deletion cursor is past the entry found. -/
  beyond : ∀ c, result.1 = some c → ∀ y, result.2 = some y → d.lt c y
  /-- The deletion cursor is not past any deleted entry after the one found. -/
  notPast : ∀ c, result.1 = some c → ∀ y ∈ del, d.lt c y → NotPast d result.2 y
  /-- When no entry is left, the deletion cursor still stands somewhere, not before its start. -/
  exhausted : result.1 = none → ∀ x, pCurDel = some x → NotPast d.flip result.2 x

/-- An entry whose deletion cursor is past it is not deleted, and both cursors stay. -/
theorem Skipped.stay {key : α} {pCurDel : Option α} (member : key ∈ shared)
    (within : ∀ y, pCurDel = some y → y ∈ del) (later : ∀ y, pCurDel = some y → d.lt key y)
    (notPast : ∀ y ∈ del, ¬ d.lt y key → NotPast d pCurDel y) :
    Skipped d shared del key pCurDel (some key, pCurDel) := by
  have kept : key ∉ del := by
    intro deleted
    obtain ⟨z, there, notBefore⟩ := notPast key deleted (irrefl d key)
    exact notBefore (later z there)
  refine ⟨Eq.symm (first_eq_some_iff.2 ⟨?_, ?_⟩), within, ?_, ?_, by rintro ⟨⟩⟩
  · exact mem_filter.2 ⟨mem_sdiff.2 ⟨member, kept⟩, irrefl d key⟩
  · exact fun y inside => (mem_filter.1 inside).2
  · intro c same y there
    cases same
    exact later y there
  · intro c same y deleted after
    cases same
    exact notPast y deleted (asymm after)

/-- A deletion cursor that moves on ends no earlier than where it started. -/
theorem Skipped.lag {key x : α} {fuel : Nat}
    (rest : Skipped d shared del key (step d del x)
      (seekToExistLoop d shared del fuel (some key) (step d del x))) :
    Skipped d shared del key (some x)
      (seekToExistLoop d shared del fuel (some key) (step d del x)) := by
  refine ⟨rest.stop, rest.within, rest.beyond, rest.notPast, ?_⟩
  intro gone w start
  cases start
  cases moved : step d del x with
  | none =>
    rw [moved] at gone
    cases fuel <;> cases gone
  | some z =>
    obtain ⟨y, there, notBefore⟩ := rest.exhausted gone z moved
    rw [moved] at there
    refine ⟨y, there, fun before => ?_⟩
    have later := (step_eq_some_iff.1 moved).1.2
    exact notBefore (Dir.flip_lt.2 (Dir.trans (Dir.flip_lt.1 before) later))

/-- From a deleted entry on, the first one that is not deleted comes later. -/
theorem first_of_deleted {key : α} (deleted : key ∈ del) :
    first d ((shared \ del).filter fun y => ¬ d.lt y key) = step d (shared \ del) key := by
  refine first_filter_congr fun y inside => ?_
  rw [Dir.not_lt_iff]
  constructor
  · rintro (rfl | later)
    · exact absurd deleted (mem_sdiff.1 inside).2
    · exact later
  · exact .inr

/-- The shared cursor moves off a deleted entry to the next one. -/
theorem Skipped.next {key next : α} {result : Option α × Option α} (deleted : key ∈ del)
    (moved : step d shared key = some next) (rest : Skipped d shared del next (some key) result) :
    Skipped d shared del key (some key) result := by
  obtain ⟨⟨-, later⟩, least⟩ := step_eq_some_iff.1 moved
  refine ⟨rest.stop.trans ?_, rest.within, rest.beyond, rest.notPast, rest.exhausted⟩
  rw [first_of_deleted deleted]
  refine first_filter_congr fun y inside => ?_
  constructor
  · exact fun notBefore => lt_of_lt_of_not_lt later notBefore
  · exact least y (mem_sdiff.1 inside).1

/-- The loop of `btreeSeekToExist` skips deleted entries, given enough fuel. -/
theorem seekToExistLoop_spec (fuel : Nat) :
    ∀ (key : α) (pCurDel : Option α), key ∈ shared → (∀ y, pCurDel = some y → y ∈ del) →
      (∀ y ∈ del, ¬ d.lt y key → NotPast d pCurDel y) →
      ahead d shared (some key) + ahead d del pCurDel < fuel →
      Skipped d shared del key pCurDel (seekToExistLoop d shared del fuel (some key) pCurDel) := by
  -- Each round moves one of the two cursors, so the entries ahead of them bound the rounds.
  induction fuel with
  | zero => intro key pCurDel member within notPast enough; omega
  | succ fuel ih =>
    intro key pCurDel member within notPast enough
    cases pCurDel with
    | none => exact Skipped.stay member within (by rintro y ⟨⟩) notPast
    | some x =>
      have deleted := within x rfl
      unfold seekToExistLoop
      split_ifs with lags same
      · have shorter := ahead_step_lt (d := d) deleted
        refine Skipped.lag (ih key (step d del x) member
          (fun y moved => (step_eq_some_iff.1 moved).1.1) ?_ (by omega))
        intro y inside notBefore
        exact notPast_step inside (lt_of_lt_of_not_lt lags notBefore)
      · subst same
        have shorter := ahead_step_lt (d := d) member
        cases moved : step d shared key with
        | none =>
          have nothing : first d ((shared \ del).filter fun y => ¬ d.lt y key) = none := by
            rw [first_of_deleted deleted, step_eq_none_iff]
            exact fun y inside => step_eq_none_iff.1 moved y (mem_sdiff.1 inside).1
          have stays : seekToExistLoop d shared del fuel none (some key) = (none, some key) := by
            cases fuel <;> rfl
          rw [stays]
          refine ⟨nothing.symm, within, by rintro c ⟨⟩, by rintro c ⟨⟩, ?_⟩
          intro _ x start
          cases start
          exact ⟨key, rfl, irrefl _ key⟩
        | some next =>
          obtain ⟨⟨inside, later⟩, -⟩ := step_eq_some_iff.1 moved
          rw [moved] at shorter
          refine Skipped.next deleted moved (ih next (some key) inside within ?_ (by omega))
          intro y _ notBefore
          exact ⟨key, rfl, fun before => notBefore (Dir.trans before later)⟩
      · refine Skipped.stay member within ?_ notPast
        intro y there
        cases there
        exact lt_of_not_lt_of_ne lags (Ne.symm same)

end SeekToExist

/-- Each position of the cursor is an entry of its tree. -/
structure Placed (ov : Overlay α) (c : BtCursor α) : Prop where
  shared : ∀ x, c.pCur = some x → x ∈ ov.shared
  ins : ∀ x, c.pCurIns = some x → x ∈ ov.ins
  del : ∀ x, c.pCurDel = some x → x ∈ ov.del

/-- A cursor that stands nowhere. -/
theorem Placed.nowhere {ov : Overlay α} {state : CursorUse} :
    Placed ov ⟨none, none, none, state⟩ := ⟨nofun, nofun, nofun⟩

/-- The cursor shows the entry `key` of the view and has not passed anything that a walk in
direction `d` has still to meet. -/
structure At (ov : Overlay α) (d : Dir) (c : BtCursor α) (key : α) : Prop where
  placed : Placed ov c
  lead : c.current = some ⟨c.state, key⟩
  shown : ov.Shows ⟨c.state, key⟩
  /-- Inserted entries to come are not passed. -/
  notPastIns : ∀ x ∈ ov.ins, d.lt key x → NotPast d c.pCurIns x
  /-- Live shared entries to come are not passed. -/
  notPastLive : ∀ x ∈ ov.live, d.lt key x → NotPast d c.pCur x
  /-- Deleted entries the shared cursor has still to meet are not passed. -/
  notPastDel : ∀ y, c.pCur = some y → ∀ x ∈ ov.del, ¬ d.lt x key → ¬ d.lt x y →
    NotPast d c.pCurDel x
  /-- After a delete-all the shared cursor stands nowhere. -/
  cleared : ov.deleteAll = true → c.pCur = none

section Advance

variable {ov : Overlay α} {d : Dir} {c : BtCursor α} {key : α} {Q : α → Prop} [DecidablePred Q]

/-- A shared position from which skipping deleted entries leads to the first live one that
satisfies `Q`. -/
structure Approaching (ov : Overlay α) (d : Dir) (Q : α → Prop) (pCur pCurDel : Option α) :
    Prop where
  placed : ∀ y, pCur = some y → y ∈ ov.shared
  placedDel : ∀ y, pCurDel = some y → y ∈ ov.del
  /-- Live entries at or after the position satisfy `Q`. -/
  after : ∀ y, pCur = some y → ∀ x ∈ ov.live, ¬ d.lt x y → Q x
  /-- Live entries with `Q` are not passed. -/
  notPast : ∀ x ∈ ov.live, Q x → NotPast d pCur x
  /-- Deleted entries at or after the position are not passed. -/
  notPastDel : ∀ y, pCur = some y → ∀ x ∈ ov.del, ¬ d.lt x y → NotPast d pCurDel x
  cleared : ov.deleteAll = true → pCur = none

/-- What skipping deleted entries leaves behind. -/
structure SkippedTo (ov : Overlay α) (d : Dir) (Q : α → Prop) [DecidablePred Q]
    (c c' : BtCursor α) : Prop where
  /-- The shared cursor stands on the first live entry with `Q`. -/
  shared : c'.pCur = first d (ov.live.filter Q)
  ins : c'.pCurIns = c.pCurIns
  del : ∀ y, c'.pCurDel = some y → y ∈ ov.del
  /-- It is past the entry found. -/
  beyond : ∀ y, c'.pCur = some y → ∀ x, c'.pCurDel = some x → d.lt y x
  /-- It is not past any deleted entry after the one found. -/
  notPastDel : ∀ y, c'.pCur = some y → ∀ x ∈ ov.del, d.lt y x → NotPast d c'.pCurDel x
  /-- When no entry is left it still stands somewhere, not before its start. -/
  exhausted : c'.pCur = none → ∀ x, c.pCurDel = some x → NotPast d.flip c'.pCurDel x

/-- Skipping deleted entries finds the next live entry and leaves the deletion cursor right. -/
theorem Approaching.skip (approach : Approaching ov d Q c.pCur c.pCurDel) :
    SkippedTo ov d Q c (btreeSeekToExist ov d c) := by
  unfold btreeSeekToExist
  cases position : c.pCur with
  | none =>
    have stays : seekToExistLoop d ov.shared ov.del (ov.shared.card + ov.del.card + 1) none
        c.pCurDel = (none, c.pCurDel) := rfl
    rw [stays]
    refine ⟨?_, rfl, approach.placedDel, (by rintro y ⟨⟩),
      (by rintro y ⟨⟩), fun _ x there => ⟨x, there, irrefl _ x⟩⟩
    symm
    rw [first_eq_none_iff]
    intro x member
    obtain ⟨inside, holds⟩ := mem_filter.1 member
    obtain ⟨y, at_, -⟩ := approach.notPast x inside holds
    rw [position] at at_
    cases at_
  | some y =>
    have kept := Overlay.kept_of_cleared approach.cleared position
    have bound : ahead d ov.shared (some y) + ahead d ov.del c.pCurDel <
        ov.shared.card + ov.del.card + 1 := by
      have left : ahead d ov.shared (some y) ≤ ov.shared.card := card_filter_le _ _
      have right : ahead d ov.del c.pCurDel ≤ ov.del.card := by
        cases c.pCurDel with
        | none => exact Nat.zero_le _
        | some x => exact card_filter_le _ _
      omega
    have skipped := seekToExistLoop_spec _ y c.pCurDel (approach.placed y position)
      approach.placedDel (approach.notPastDel y position) bound
    refine ⟨skipped.stop.trans ?_, rfl, skipped.within, skipped.beyond, skipped.notPast,
      skipped.exhausted⟩
    unfold Overlay.live
    simp only [kept, Bool.false_eq_true, if_false]
    refine first_filter_congr fun x inside => ?_
    have live : x ∈ ov.live := (Overlay.mem_live kept).2 (mem_sdiff.1 inside)
    constructor
    · exact approach.after y position x live
    · intro holds
      obtain ⟨z, at_, notPast⟩ := approach.notPast x live holds
      rw [position] at at_
      cases at_
      exact notPast

omit [DecidablePred Q] in
/-- Stepping the shared cursor off an entry approaches the next live one, as long as the deletion
cursor is not past anything after that entry. -/
theorem approach_step (kept : ov.deleteAll = false) {pCurDel : Option α}
    (placed : ∀ x, pCurDel = some x → x ∈ ov.del) (own : ∀ x ∈ ov.live, (Q x ↔ d.lt key x))
    (ready : ∀ x ∈ ov.del, d.lt key x → NotPast d pCurDel x) :
    Approaching ov d Q (step d ov.shared key) pCurDel := by
  refine ⟨?_, placed, ?_, ?_, ?_, ?_⟩
  · exact fun y found => (step_eq_some_iff.1 found).1.1
  · intro y found x inside notBefore
    rw [own x inside]
    exact lt_of_lt_of_not_lt (step_eq_some_iff.1 found).1.2 notBefore
  · intro x inside holds
    rw [own x inside] at holds
    have member := Overlay.live_subset inside
    cases found : step d ov.shared key with
    | none => exact absurd holds (step_eq_none_iff.1 found x member)
    | some y => exact ⟨y, rfl, (step_eq_some_iff.1 found).2 x member holds⟩
  · intro y found x deleted notBefore
    exact ready x deleted (lt_of_lt_of_not_lt (step_eq_some_iff.1 found).1.2 notBefore)
  · intro flag
    rw [kept] at flag
    cases flag

/-- The leading cursor stands on `key`, and what one advance has to choose from are the entries
of the view that satisfy `Q`. -/
structure Leads (ov : Overlay α) (d : Dir) (Q : α → Prop) (c : BtCursor α) (key : α) : Prop where
  placed : Placed ov c
  lead : c.current = some ⟨c.state, key⟩
  /-- In the tree that leads, the entries with `Q` are those after the key. -/
  own : ∀ x, ov.Shows ⟨c.state, x⟩ → (Q x ↔ d.lt key x)
  /-- No entry with `Q` comes before the key. -/
  notBefore : ∀ x, x ∈ ov.live ∨ x ∈ ov.ins → Q x → ¬ d.lt x key
  /-- Inserted entries with `Q` are not passed. -/
  notPastIns : ∀ x ∈ ov.ins, Q x → NotPast d c.pCurIns x
  /-- Live entries with `Q` are not passed. -/
  notPastLive : ∀ x ∈ ov.live, Q x → NotPast d c.pCur x
  /-- What the insertion cursor meets from the key on satisfies `Q`. -/
  restIns : c.state = .useShared → ∀ y, c.pCurIns = some y → ∀ x ∈ ov.ins, ¬ d.lt x y →
    ¬ d.lt x key → Q x
  /-- What the shared cursor meets from the key on satisfies `Q`. -/
  restLive : c.state = .useTrans → ∀ y, c.pCur = some y → ∀ x ∈ ov.live, ¬ d.lt x y →
    ¬ d.lt x key → Q x
  /-- Deleted entries the shared cursor has still to meet are not passed. -/
  notPastDel : ∀ y, c.pCur = some y → ∀ x ∈ ov.del, ¬ d.lt x key → ¬ d.lt x y →
    NotPast d c.pCurDel x
  cleared : ov.deleteAll = true → c.pCur = none

/-- On an entry of the view the next entries are those after it. -/
theorem At.leads (at_ : At ov d c key) : Leads ov d (d.lt key) c key := by
  have apart : ∀ (use : CursorUse) {x : α}, c.state ≠ use → ov.Shows ⟨use, x⟩ → x ≠ key := by
    rintro use x differs shown rfl
    have lead := at_.shown
    cases state : c.state <;> cases use <;> rw [state] at differs lead
    · exact differs rfl
    · exact Overlay.not_mem_ins_of_live lead shown
    · exact Overlay.not_mem_ins_of_live shown lead
    · exact differs rfl
  refine ⟨at_.placed, at_.lead, fun x _ => Iff.rfl, fun x _ => asymm, at_.notPastIns,
    at_.notPastLive, ?_, ?_, at_.notPastDel, at_.cleared⟩
  · intro state y _ x inside _ notBefore
    refine lt_of_not_lt_of_ne notBefore (apart .useTrans ?_ inside)
    rw [state]
    decide
  · intro state y _ x inside _ notBefore
    refine lt_of_not_lt_of_ne notBefore (apart .useShared ?_ inside)
    rw [state]
    decide

/-- An insertion cursor that does not lead catches up with the first inserted entry with `Q`. -/
theorem Leads.catchUp_ins (leads : Leads ov d Q c key) (state : c.state = .useShared) :
    advanceWhile d ov.ins (d.lt · key) (ov.ins.card + 1) c.pCurIns = first d (ov.ins.filter Q) := by
  cases position : c.pCurIns with
  | none =>
    symm
    rw [show advanceWhile d ov.ins (d.lt · key) (ov.ins.card + 1) none = none from rfl,
      first_eq_none_iff]
    intro x member
    obtain ⟨inside, holds⟩ := mem_filter.1 member
    obtain ⟨y, there, -⟩ := leads.notPastIns x inside holds
    rw [position] at there
    cases there
  | some y =>
    by_cases behind : d.lt y key
    · rw [advanceWhile_lt behind _ (Nat.lt_succ_of_le (card_filter_le _ _))]
      refine first_filter_congr fun x within => ?_
      constructor
      · intro notBefore
        have later := lt_of_lt_of_not_lt behind notBefore
        exact leads.restIns state y position x within (asymm later) notBefore
      · exact leads.notBefore x (.inr within)
    · rw [advanceWhile_of_not_lt behind]
      symm
      have inside := leads.placed.ins y position
      have holds := leads.restIns state y position y inside (irrefl d y) behind
      refine first_eq_some_iff.2 ⟨mem_filter.2 ⟨inside, holds⟩, fun x member => ?_⟩
      obtain ⟨within, holds'⟩ := mem_filter.1 member
      obtain ⟨z, there, notPast⟩ := leads.notPastIns x within holds'
      rw [position] at there
      cases there
      exact notPast


omit [DecidablePred Q] in
/-- When the shared cursor leads, stepping it off the key approaches the next live entry. -/
theorem Leads.approach_shared (leads : Leads ov d Q c key) (state : c.state = .useShared)
    (there : c.pCur = some key) : Approaching ov d Q (step d ov.shared key) c.pCurDel := by
  refine approach_step (Overlay.kept_of_cleared leads.cleared there) leads.placed.del
    (fun x inside => ?_) ?_
  · have shown := leads.own x
    rw [state] at shown
    exact shown inside
  · exact fun x deleted later =>
      leads.notPastDel key there x deleted (asymm later) (asymm later)

omit [DecidablePred Q] in
/-- When the insertion cursor leads, the shared cursor catches up and approaches the next
live entry. -/
theorem Leads.approach_trans (leads : Leads ov d Q c key) (state : c.state = .useTrans) :
    Approaching ov d Q
      (advanceWhile d ov.shared (d.lt · key) (ov.shared.card + 1) c.pCur) c.pCurDel := by
  cases position : c.pCur with
  | none =>
    refine ⟨(by rintro y ⟨⟩), leads.placed.del, (by rintro y ⟨⟩),
      ?_, (by rintro y ⟨⟩), fun _ => rfl⟩
    intro x inside holds
    obtain ⟨y, there, -⟩ := leads.notPastLive x inside holds
    rw [position] at there
    cases there
  | some y =>
    have cleared : ∀ cursor : Option α, ov.deleteAll = true → cursor = none := by
      intro cursor flag
      rw [Overlay.kept_of_cleared leads.cleared position] at flag
      cases flag
    by_cases behind : d.lt y key
    · rw [advanceWhile_lt behind _ (Nat.lt_succ_of_le (card_filter_le _ _))]
      have fromKey : ∀ z x, first d (ov.shared.filter fun w => ¬ d.lt w key) = some z →
          ¬ d.lt x z → ¬ d.lt x key ∧ ¬ d.lt x y := by
        intro z x found notBefore
        have notBefore' := not_lt_trans (first_filter_mem found).2 notBefore
        exact ⟨notBefore', asymm (lt_of_lt_of_not_lt behind notBefore')⟩
      refine ⟨?_, leads.placed.del, ?_, ?_, ?_, cleared _⟩
      · exact fun z found => (first_filter_mem found).1
      · intro z found x inside notBefore
        obtain ⟨afterKey, afterY⟩ := fromKey z x found notBefore
        exact leads.restLive state y position x inside afterY afterKey
      · intro x inside holds
        have member : x ∈ ov.shared.filter fun w => ¬ d.lt w key :=
          mem_filter.2 ⟨Overlay.live_subset inside, leads.notBefore x (.inl inside) holds⟩
        obtain ⟨z, found⟩ := exists_first (d := d) member
        exact ⟨z, found, (first_eq_some_iff.1 found).2 x member⟩
      · intro z found x deleted notBefore
        obtain ⟨afterKey, afterY⟩ := fromKey z x found notBefore
        exact leads.notPastDel y position x deleted afterKey afterY
    · rw [advanceWhile_of_not_lt behind]
      refine ⟨?_, leads.placed.del, ?_, ?_, ?_, cleared _⟩
      · rintro z ⟨⟩
        exact leads.placed.shared y position
      · rintro z ⟨⟩ x inside notBefore
        exact leads.restLive state y position x inside notBefore (not_lt_trans behind notBefore)
      · intro x inside holds
        obtain ⟨z, there, notPast⟩ := leads.notPastLive x inside holds
        exact ⟨z, position.symm.trans there, notPast⟩
      · rintro z ⟨⟩ x deleted notBefore
        exact leads.notPastDel y position x deleted (not_lt_trans behind notBefore) notBefore

/-- The cursor that leads stands on an entry, and the other one does not come before it. -/
theorem leader_cases (d : Dir) (pCur pCurIns : Option α) :
    (leader d pCur pCurIns = none ∧ pCur = none ∧ pCurIns = none) ∨
      (∃ key, leader d pCur pCurIns = some .useShared ∧ pCur = some key ∧
        ∀ i, pCurIns = some i → ¬ d.lt i key) ∨
      ∃ key, leader d pCur pCurIns = some .useTrans ∧ pCurIns = some key ∧
        ∀ y, pCur = some y → d.lt key y := by
  cases pCur with
  | none =>
    cases pCurIns with
    | none => exact .inl ⟨rfl, rfl, rfl⟩
    | some i => exact .inr (.inr ⟨i, rfl, rfl, by rintro y ⟨⟩⟩)
  | some key =>
    cases pCurIns with
    | none => exact .inr (.inl ⟨key, rfl, rfl, by rintro i ⟨⟩⟩)
    | some i =>
      by_cases order : key = i ∨ d.lt key i
      · refine .inr (.inl ⟨key, if_pos order, rfl, ?_⟩)
        rintro j ⟨⟩
        rcases order with rfl | before
        · exact irrefl d key
        · exact asymm before
      · refine .inr (.inr ⟨i, if_neg order, rfl, ?_⟩)
        rintro y ⟨⟩
        rw [not_or] at order
        exact lt_of_not_lt_of_ne order.2 order.1

variable {P : α → Prop}

/-- If neither cursor is past an entry with `P`, the one that leads is the first with `P` or comes
before it. -/
theorem leader_least {live ins : Finset α} {pCur pCurIns : Option α}
    (notPast : ∀ x ∈ live, P x → NotPast d pCur x)
    (notPastIns : ∀ x ∈ ins, P x → NotPast d pCurIns x) :
    (leader d pCur pCurIns = none ∧ ∀ x, x ∈ live ∨ x ∈ ins → ¬ P x) ∨
      (∃ key, leader d pCur pCurIns = some .useShared ∧ pCur = some key ∧
        ∀ x, x ∈ live ∨ x ∈ ins → P x → ¬ d.lt x key) ∨
      ∃ key, leader d pCur pCurIns = some .useTrans ∧ pCurIns = some key ∧
        ∀ x, x ∈ live ∨ x ∈ ins → P x → ¬ d.lt x key := by
  rcases leader_cases d pCur pCurIns with ⟨led, rfl, rfl⟩ | ⟨key, led, rfl, first⟩ |
    ⟨key, led, rfl, first⟩
  · refine .inl ⟨led, ?_⟩
    rintro x (inside | inside) holds
    · obtain ⟨y, ⟨⟩, -⟩ := notPast x inside holds
    · obtain ⟨y, ⟨⟩, -⟩ := notPastIns x inside holds
  · refine .inr (.inl ⟨key, led, rfl, ?_⟩)
    rintro x (inside | inside) holds
    · obtain ⟨y, ⟨⟩, notBefore⟩ := notPast x inside holds
      exact notBefore
    · obtain ⟨i, there, notBefore⟩ := notPastIns x inside holds
      exact not_lt_trans (first i there) notBefore
  · refine .inr (.inr ⟨key, led, rfl, ?_⟩)
    rintro x (inside | inside) holds
    · obtain ⟨y, there, notBefore⟩ := notPast x inside holds
      exact fun sooner => notBefore (Dir.trans sooner (first y there))
    · obtain ⟨i, ⟨⟩, notBefore⟩ := notPastIns x inside holds
      exact notBefore

/-- The positions after one advance, before the leading cursor is chosen: both at the first
entry of their part of the view that satisfies `Q`. -/
structure Advanced (ov : Overlay α) (d : Dir) (Q : α → Prop) [DecidablePred Q]
    (c : BtCursor α) : Prop where
  shared : c.pCur = first d (ov.live.filter Q)
  ins : c.pCurIns = first d (ov.ins.filter Q)
  del : ∀ y, c.pCurDel = some y → y ∈ ov.del
  /-- Deleted entries after the shared position are not passed. -/
  notPastDel : ∀ y, c.pCur = some y → ∀ x ∈ ov.del, d.lt y x → NotPast d c.pCurDel x

/-- A position on the first entry with `Q` is not past any entry with `Q`. -/
theorem notPast_of_first {t : Finset α} {cursor : Option α} (there : cursor = first d (t.filter Q))
    {x : α} (inside : x ∈ t) (holds : Q x) : NotPast d cursor x := by
  have member := mem_filter.2 ⟨inside, holds⟩
  obtain ⟨y, found⟩ := exists_first (d := d) member
  exact ⟨y, there.trans found, (first_eq_some_iff.1 found).2 x member⟩

section

variable (advanced : Advanced ov d Q c) (upward : ∀ x y, Q x → d.lt x y → Q y)

include advanced upward

/-- An entry that is first in its part of the view and before the first of the other part. -/
theorem Advanced.at {use : CursorUse}
    (lead : BtCursor.current { c with state := use } = some ⟨use, key⟩)
    (shown : ov.Shows ⟨use, key⟩) (holds : Q key) : At ov d { c with state := use } key := by
  refine ⟨⟨fun x there => ?_, fun x there => ?_, advanced.del⟩, lead, shown, ?_, ?_, ?_, ?_⟩
  · exact Overlay.live_subset (first_filter_mem (advanced.shared.symm.trans there)).1
  · exact (first_filter_mem (advanced.ins.symm.trans there)).1
  · exact fun x inside after => notPast_of_first advanced.ins inside (upward key x holds after)
  · exact fun x inside after => notPast_of_first advanced.shared inside (upward key x holds after)
  · intro y there x deleted _ notBefore
    have live := (first_filter_mem (advanced.shared.symm.trans there)).1
    exact advanced.notPastDel y there x deleted
      (lt_of_not_lt_of_ne notBefore (Overlay.ne_of_del deleted live))
  · intro flag
    rw [advanced.shared, first_eq_none_iff]
    exact fun x member => Overlay.not_deleteAll (mem_filter.1 member).1 flag

/-- Choosing the leading cursor after an advance lands on the first entry of the view with
`Q`. -/
theorem Advanced.choose : match leader d c.pCur c.pCurIns with
    | none => ∀ x, x ∈ ov.live ∨ x ∈ ov.ins → ¬ Q x
    | some use => ∃ key, At ov d { c with state := use } key ∧ Q key ∧
        ∀ x, x ∈ ov.live ∨ x ∈ ov.ins → Q x → ¬ d.lt x key := by

  rcases leader_least (fun _ => notPast_of_first advanced.shared)
    (fun _ => notPast_of_first advanced.ins) with ⟨led, none⟩ | ⟨key, led, there, least⟩ |
    ⟨key, led, there, least⟩
  · rw [led]
    exact none
  · obtain ⟨live, holds⟩ := first_filter_mem (advanced.shared.symm.trans there)
    rw [led]
    refine ⟨key, advanced.at upward ?_ live holds, holds, least⟩
    simp only [BtCursor.current, there, Option.map_some]
  · obtain ⟨inserted, holds⟩ := first_filter_mem (advanced.ins.symm.trans there)
    rw [led]
    refine ⟨key, advanced.at upward ?_ inserted holds, holds, least⟩
    simp only [BtCursor.current, there, Option.map_some]

/-- What `btreeSeekToExistAll` makes of positions it has settled. -/
def settle (d : Dir) (c : BtCursor α) : BtCursor α × Rc :=
  match leader d c.pCur c.pCurIns with
  | some use => ({ c with state := use }, .ok)
  | none => (c, .done)

/-- Settled positions stand nowhere when nothing of the view has `Q`, and otherwise on the first
entry that has it. -/
theorem Advanced.settle_cases : ((settle d c).2 = .done ∧ ∀ x, x ∈ ov.live ∨ x ∈ ov.ins → ¬ Q x) ∨
      ((settle d c).2 = .ok ∧ ∃ key, At ov d (settle d c).1 key ∧ Q key ∧
        ∀ x, x ∈ ov.live ∨ x ∈ ov.ins → Q x → ¬ d.lt x key) := by
  have chosen := advanced.choose upward
  rw [settle]
  cases led : leader d c.pCur c.pCurIns with
  | none =>
    rw [led] at chosen
    exact .inl ⟨rfl, chosen⟩
  | some use =>
    rw [led] at chosen
    exact .inr ⟨rfl, chosen⟩

end

/-- One advance takes the cursor to the first entries of the view that satisfy `Q`. -/
def Advances (ov : Overlay α) (d : Dir) (Q : α → Prop) [DecidablePred Q] (c : BtCursor α) : Prop :=
  ∃ c', sqlite3BtreeAdvanceAll ov d c = settle d c' ∧ Advanced ov d Q c'

/-- After such an advance nothing of the view with `Q` is left, or the cursor stands on its
first entry. -/
theorem Advances.cases (advances : Advances ov d Q c) (upward : ∀ x y, Q x → d.lt x y → Q y) :
    ((sqlite3BtreeAdvanceAll ov d c).2 = .done ∧ ∀ x, x ∈ ov.live ∨ x ∈ ov.ins → ¬ Q x) ∨
      ((sqlite3BtreeAdvanceAll ov d c).2 = .ok ∧
        ∃ key, At ov d (sqlite3BtreeAdvanceAll ov d c).1 key ∧ Q key ∧
          ∀ x, x ∈ ov.live ∨ x ∈ ov.ins → Q x → ¬ d.lt x key) := by
  obtain ⟨c', result, advanced⟩ := advances
  rw [result]
  exact advanced.settle_cases upward

/-- Advancing takes both positions to the first entries with `Q`. -/
theorem Leads.advances (leads : Leads ov d Q c key) : Advances ov d Q c := by
  have lead := leads.lead
  unfold BtCursor.current at lead
  unfold Advances sqlite3BtreeAdvanceAll btreeSeekToExistAll catchUp settle
  cases state : c.state with
  | useShared =>
    rw [state] at lead
    have there : c.pCur = some key := by
      cases position : c.pCur with
      | none => rw [position] at lead; cases lead
      | some y => rw [position] at lead; cases lead; rfl
    have skipped := Approaching.skip
      (c := { c with
        pCur := advance d ov.shared (some key)
        pCurIns := advanceWhile d ov.ins (d.lt · key) (ov.ins.card + 1) c.pCurIns
        state := .useShared }) (leads.approach_shared state there)
    simp only [there]
    exact ⟨_, rfl, skipped.shared, skipped.ins.trans (leads.catchUp_ins state), skipped.del,
      skipped.notPastDel⟩
  | useTrans =>
    rw [state] at lead
    have there : c.pCurIns = some key := by
      cases position : c.pCurIns with
      | none => rw [position] at lead; cases lead
      | some y => rw [position] at lead; cases lead; rfl
    have stepped : step d ov.ins key = first d (ov.ins.filter Q) := by
      refine first_filter_congr fun x inside => ?_
      have shown := leads.own x
      rw [state] at shown
      exact (shown inside).symm
    have skipped := Approaching.skip
      (c := { c with
        pCur := advanceWhile d ov.shared (d.lt · key) (ov.shared.card + 1) c.pCur
        pCurIns := advance d ov.ins (some key)
        state := .useTrans }) (leads.approach_trans state)
    simp only [there]
    exact ⟨_, rfl, skipped.shared, skipped.ins.trans stepped, skipped.del, skipped.notPastDel⟩

/-- Advancing from an entry of the view reaches the next entry of each part. -/
theorem At.advances (at_ : At ov d c key) : Advances ov d (d.lt key) c := at_.leads.advances

/-- No key is in the view twice. -/
theorem Overlay.shows_unique {left right : Visit α} (shownLeft : ov.Shows left)
    (shownRight : ov.Shows right) (same : left.key = right.key) : left = right := by
  obtain ⟨useLeft, keyLeft⟩ := left
  obtain ⟨useRight, keyRight⟩ := right
  obtain rfl : keyLeft = keyRight := same
  cases useLeft <;> cases useRight
  · rfl
  · exact absurd shownRight (Overlay.not_mem_ins_of_live shownLeft)
  · exact absurd shownLeft (Overlay.not_mem_ins_of_live shownRight)
  · rfl

/-- Every entry of the view is read from one of its trees. -/
theorem Overlay.shows_iff {x : α} : (∃ use, ov.Shows ⟨use, x⟩) ↔ x ∈ ov.live ∨ x ∈ ov.ins := by
  constructor
  · rintro ⟨use, shown⟩
    cases use
    · exact .inl shown
    · exact .inr shown
  · rintro (live | inserted)
    · exact ⟨.useShared, live⟩
    · exact ⟨.useTrans, inserted⟩

variable {visit : Visit α}

/-- What is shown is in the view. -/
theorem Overlay.Shows.mem (shown : ov.Shows visit) :
    visit.key ∈ ov.live ∨ visit.key ∈ ov.ins := Overlay.shows_iff.1 ⟨visit.use, shown⟩

/-- A list shows, in order and each once, the entries of the view whose key satisfies `P`,
each read from the right tree. -/
def Lists (ov : Overlay α) (d : Dir) (P : α → Prop) (out : List (Visit α)) : Prop :=
  out.Pairwise (fun a b => d.lt a.key b.key) ∧ ∀ visit, visit ∈ out ↔ ov.Shows visit ∧ P visit.key

/-- Nothing is shown when nothing is to be shown. -/
theorem lists_nil (none : ∀ x, x ∈ ov.live ∨ x ∈ ov.ins → ¬ P x) : Lists ov d P [] := by
  refine ⟨List.Pairwise.nil, fun visit => ?_⟩
  simp only [List.not_mem_nil, false_iff, not_and]
  exact fun shown => none visit.key shown.mem

variable {out : List (Visit α)}

/-- Showing one entry and then everything after it shows everything from it on. -/
theorem lists_cons {P Q : α → Prop} (shown : ov.Shows visit) (holds : P visit.key)
    (rest : Lists ov d Q out) (split : ∀ x, x ∈ ov.live ∨ x ∈ ov.ins → (P x ∧ x ≠ visit.key ↔ Q x))
    (after : ∀ x, Q x → d.lt visit.key x) : Lists ov d P (visit :: out) := by
  refine ⟨List.Pairwise.cons ?_ rest.1, fun other => ?_⟩
  · exact fun other member => after other.key ((rest.2 other).1 member).2
  · rw [List.mem_cons, rest.2]
    constructor
    · rintro (rfl | ⟨shown', holds'⟩)
      · exact ⟨shown, holds⟩
      · exact ⟨shown', ((split other.key shown'.mem).2 holds').1⟩
    · rintro ⟨shown', holds'⟩
      by_cases same : other.key = visit.key
      · exact .inl (Overlay.shows_unique shown' shown same)
      · exact .inr ⟨shown', (split other.key shown'.mem).1 ⟨holds', same⟩⟩

/-- A list whose first entry comes after a wanted one is not right. -/
theorem not_lists_of_lost {x : α} (inView : x ∈ ov.live ∨ x ∈ ov.ins) (wanted : P x)
    (lost : d.lt x visit.key) : ¬ Lists ov d P (visit :: out) := by
  intro lists
  obtain ⟨use, shown⟩ := Overlay.shows_iff.2 inView
  rcases List.mem_cons.1 ((lists.2 ⟨use, x⟩).2 ⟨shown, wanted⟩) with rfl | member
  · exact irrefl d _ lost
  · exact asymm lost ((List.pairwise_cons.1 lists.1).1 _ member)

/-- A list with an entry that is not in the view is not right. -/
theorem not_lists_of_stray (member : visit ∈ out) (stray : ¬ ov.Shows visit) : ¬ Lists ov d P out :=
  fun lists => stray ((lists.2 visit).1 member).1

/-- What is left of the view after an entry with `Q` is less than what has `Q`. -/
theorem card_rest_lt (upward : ∀ x y, Q x → d.lt x y → Q y) (inView : key ∈ ov.live ∨ key ∈ ov.ins)
    (holds : Q key) :
    (ov.live.filter (d.lt key)).card + (ov.ins.filter (d.lt key)).card <
      (ov.live.filter Q).card + (ov.ins.filter Q).card := by
  have subset : ∀ t : Finset α, t.filter (d.lt key) ⊆ t.filter Q := by
    intro t x member
    obtain ⟨inside, after⟩ := mem_filter.1 member
    exact mem_filter.2 ⟨inside, upward key x holds after⟩
  have strict : ∀ t : Finset α, key ∈ t → (t.filter (d.lt key)).card < (t.filter Q).card := by
    intro t inside
    apply card_lt_card
    rw [Finset.ssubset_iff_of_subset (subset t)]
    exact ⟨key, mem_filter.2 ⟨inside, holds⟩, by simp⟩
  have live := card_le_card (subset ov.live)
  have ins := card_le_card (subset ov.ins)
  rcases inView with inLive | inIns
  · have := strict ov.live inLive
    omega
  · have := strict ov.ins inIns
    omega

/-- From an entry of the view on, a scan shows the rest of the view. -/
theorem At.visits (fuel : Nat) :
    ∀ {c : BtCursor α} {key : α}, At ov d c key →
      (ov.live.filter (d.lt key)).card + (ov.ins.filter (d.lt key)).card < fuel →
      ∃ out, Scan.visits ov d fuel c = some out ∧ Lists ov d (fun x => ¬ d.lt x key) out := by
  induction fuel with
  | zero => intro c key at_ enough; omega
  | succ fuel ih =>
    intro c key at_ enough
    have first : ∀ x, x ∈ ov.live ∨ x ∈ ov.ins → (¬ d.lt x key ∧ x ≠ key ↔ d.lt key x) :=
      fun _ _ => Dir.not_lt_and_ne_iff
    rw [Scan.visits, at_.lead]
    rcases at_.advances.cases fun x y => Dir.trans with
      ⟨done, nothing⟩ | ⟨ok, key', next, later, least⟩
    · generalize sqlite3BtreeAdvanceAll ov d c = result at done
      obtain ⟨c', rc⟩ := result
      obtain rfl : rc = .done := done
      refine ⟨_, rfl, lists_cons at_.shown (irrefl d key) (Q := d.lt key) ?_ first
        fun x after => after⟩
      exact lists_nil nothing
    · generalize sqlite3BtreeAdvanceAll ov d c = result at ok next
      obtain ⟨c', rc⟩ := result
      obtain rfl : rc = .ok := ok
      have inView : key' ∈ ov.live ∨ key' ∈ ov.ins := next.shown.mem
      have shrinks := card_rest_lt (Q := d.lt key) (fun x y => Dir.trans) inView later
      obtain ⟨out, visited, lists⟩ := ih next (by omega)
      refine ⟨⟨c.state, key⟩ :: out, by simp only [visited, Option.map_some], ?_⟩
      refine lists_cons at_.shown (irrefl d key) lists ?_ ?_
      · intro x inView
        rw [first x inView]
        exact ⟨least x inView, fun notBefore => lt_of_lt_of_not_lt later notBefore⟩
      · exact fun x notBefore => lt_of_lt_of_not_lt later notBefore

end Advance

end SQLumDash.Scan
