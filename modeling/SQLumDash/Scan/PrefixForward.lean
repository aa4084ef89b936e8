import SQLumDash.Scan.PrefixScan

/-!
# Forward prefix scans

When `OP_SeekGE` with a prefix shows exactly the view's entries with the prefix. It does not
when a live match comes before the inserted ones: the insertion cursor is made to lead and
the shared one is never looked at again. Nor does it when the deletion cursor is left behind
the walk of the shared cursor to the block, which then stops at a deleted entry.
-/

namespace SQLumDash.Scan

open OrderedCursor

variable {α : Type*} [LinearOrder α]

/-- Every live entry lies below the block and below every deleted one, and between the last
inserted entry below the block and the block there is a deleted one that is not the last. -/
def DeletedBefore (ov : Overlay α) (record : Probe α) : Prop :=
  (∃ l, l ∈ ov.live) ∧ (∀ l ∈ ov.live, record.cmp l = .lt) ∧
    (∀ l ∈ ov.live, ∀ x ∈ ov.del, l < x) ∧ hasMatch record ov.ins ∧
    ∃ b ∈ ov.ins, record.cmp b = .lt ∧ (∀ i ∈ ov.ins, record.cmp i = .lt → i ≤ b) ∧
      ∃ x ∈ ov.del, b ≤ x ∧ record.cmp x = .lt ∧ ∃ y ∈ ov.del, x < y

/-- The inputs on which some landing makes a forward prefix scan wrong. -/
def PrefixForwardFails (ov : Overlay α) (record : Probe α) : Prop :=
  LiveFirst ov .forward record ∨ DeletedBefore ov record

section Settled

variable {moveto : MovetoUnpacked α} {ov : Overlay α} {record : Probe α} {c : BtCursor α}
  {pCur pCurIns pCurDel : Option α} {state : CursorUse} {res resIns : Int}

/-- Where the search of the shared tree leaves the cursors of a forward prefix scan. -/
theorem seekShared_prefix_forward (moveto : MovetoUnpacked α) (record : Probe α)
    (placed : ∀ x, c.pCurDel = some x → x ∈ ov.del) :
    let found := seekShared moveto ov (.idxKey record Opcode.seekGE.direction) .seekGE c
    Near ov.live (record.cut .forward) .forward found.1.pCur found.2.1 ∧
      (∀ x, found.1.pCurDel = some x → x ∈ ov.del) ∧
      (DelReady ov .forward found.1.pCur found.1.pCurDel ∨
        ForwardStuck ov (record.cut .forward) found.1.pCurDel) := by
  have asked : Opcode.seekGE ≠ .zero := by decide
  rcases seekShared_cases moveto (.idxKey record Opcode.seekGE.direction) asked placed with
    ⟨kept, landing⟩ | ⟨noneLive, gone, placed', reported⟩
  · have sharp : (record.cut .forward).Sharp := Probe.cut_sharp
    exact ⟨landing.near sharp, landing.placedDel, landing.forward_settled sharp⟩
  · dsimp only
    rw [gone, reported]
    exact ⟨.nowhere noneLive, placed', .inl (by rintro y ⟨⟩)⟩

/-- A seek of the deletion cursor that lands past a deleted entry leaves it below the block. -/
theorem behind_of_landed_past {content : Finset α} {x z : α}
    (lands : Landed content (record.cut .forward) (some z)) (inside : x ∈ content) (past : x < z) :
    record.cmp x = .lt := by
  have apart : (record.cut .forward).cmp z ≠ .eq := Probe.cut_ne_eq
  rcases Probe.behind_or_ahead (d := .forward) apart with behind | ahead
  · exact Probe.cut_behind.1 (behind.of_not_lt (x := x) (lt_asymm past))
  · exact Probe.cut_behind.1 (lands.ahead ahead inside past)

/-- The deletion cursor sought again for a stuck one. -/
theorem refetched_cases (moveto : MovetoUnpacked α) (record : Probe α) (placed : ∃ x, x ∈ ov.del) :
    ∃ z, refetchDel moveto ov (record.cut .forward) .seekGE none = some z ∧ z ∈ ov.del ∧
      ∀ x ∈ ov.del, x < z → record.cmp x = .lt := by
  have lands := moveto.lands .del ov.del (record.cut .forward)
  change ∃ z, moveto.land .del ov.del (record.cut .forward) = some z ∧ _
  cases landed : moveto.land .del ov.del (record.cut .forward) with
  | none =>
    rw [landed] at lands
    exact absurd lands (Finset.ne_empty_of_mem placed.choose_spec)
  | some z =>
    rw [landed] at lands
    exact ⟨z, rfl, lands.mem, fun x deleted past => behind_of_landed_past lands deleted past⟩

/-- With an inserted match a stuck deletion cursor is sought again, and is then right for what
follows the insertion cursor. -/
theorem ForwardStuck.ready_inserted {i : α} (stuck : ForwardStuck ov (record.cut .forward) none)
    (safe : ∀ x ∈ ov.del, ∀ y ∈ ov.del, i ≤ x → record.cmp x = .lt → ¬ x < y) :
    ∀ y, pCur = some y → ∀ x ∈ ov.del, ¬ x < i → y < x →
      NotPast .forward (refetchDel moveto ov (record.cut .forward) .seekGE none) x := by
  intro y there x deleted notBefore later
  obtain ⟨z, refetched, deletedZ, behind⟩ := refetched_cases moveto record stuck.someDel
  refine ⟨z, refetched, fun past => ?_⟩
  exact safe x deleted z deletedZ (not_lt.1 notBefore) (behind x deleted past) past

/-- With a stuck deletion cursor and nothing inserted, what comes first lies below the block. -/
theorem stuck_alone_nothing {l : α} (near : Near ov.live (record.cut .forward) .forward (some l) res)
    (stuck : ForwardStuck ov (record.cut .forward) none) (noneIns : ov.ins = ∅)
    (noneLive : ¬ hasMatch record ov.live) :
    ChoiceBlock moveto ov .seekGE record ⟨some l, none, none, state⟩ res (-1) := by
  have noMatchIns : ¬ hasMatch record ov.ins := by simp [hasMatch, noneIns]
  obtain ⟨z, refetched, deletedZ, behind⟩ :=
    refetched_cases moveto record stuck.someDel
  have placed : ∀ x, (none : Option α) = some x → x ∈ ov.del := by rintro x ⟨⟩
  by_cases past : ∃ x ∈ ov.del, x < z
  · obtain ⟨x, deleted, before⟩ := past
    have below := stuck.before l near.mem
    have reported : res = -1 := by
      rcases near.sides near.cut_ne_zero with ⟨-, ahead⟩ | ⟨reported, -⟩
      · exact absurd ahead below.not_ahead
      · exact reported
    subst reported
    unfold ChoiceBlock
    rw [chooseCursor_apart (.inl rfl) (not_seen noMatchIns (by decide))
      (not_seen noneLive (by decide))]
    dsimp only
    rw [show Opcode.seekGE.dir = .forward from rfl, refetched]
    have later := stuck.beforeDel l near.mem x deleted
    refine Meets.block_nothing (x := x) ⟨ov.del_subset deleted, ⟨l, rfl, lt_asymm later⟩, ?_,
      (by rintro ⟨⟩)⟩ ⟨?_, (by rintro y ⟨⟩), ?_⟩ ?_ ?_
      (noMatch_view noneLive noMatchIns)
    · rintro w ⟨⟩
      exact before
    · rintro y ⟨⟩
      exact Overlay.live_subset near.mem
    · rintro w ⟨⟩
      exact deletedZ
    · intro same
      cases same
      exact lt_irrefl _ later
    · intro y order same
      have behindX : record.Behind .forward x := behind x deleted before
      exact (behindX.of_not_lt order).apart same
  · refine choice_no_match (.inl rfl) near (.nowhere noneIns) placed noneLive noMatchIns ?_
    rintro - y ⟨⟩ x deleted -
    exact ⟨z, refetched, fun sooner => past ⟨x, deleted, sooner⟩⟩

/-- Away from the failing inputs a stuck deletion cursor does no harm. -/
theorem prefixForward_stuck (near : Near ov.live (record.cut .forward) .forward pCur res)
    (nearIns : Near ov.ins (record.cut .forward) .forward pCurIns resIns)
    (stuck : ForwardStuck ov (record.cut .forward) none) (safe : ¬ PrefixForwardFails ov record) :
    ChoiceBlock moveto ov .seekGE record ⟨pCur, pCurIns, none, state⟩ res resIns := by
  have seeks : Opcode.seekGE.Seeks := .inl rfl
  have placedDel : ∀ x, (none : Option α) = some x → x ∈ ov.del := by rintro x ⟨⟩
  have matchLive : ¬ hasMatch record ov.live := by
    rintro ⟨x, live, same⟩
    exact Probe.not_behind_of_eq same (Probe.cut_behind.1 (stuck.before x live))
  by_cases matchIns : hasMatch record ov.ins
  · cases pCurIns with
    | none =>
      cases nearIns with
      | nowhere noneIns => simp [hasMatch, noneIns] at matchIns
    | some i =>
      rcases nearIns.sides nearIns.cut_ne_zero with ⟨rfl, aheadI⟩ | ⟨rfl, behindI⟩
      · refine (choice_inserted_ahead seeks near placedDel matchIns ?_ nearIns).2
          (not_lt_of_not_liveFirst (fun fails => safe (.inl fails)) matchIns nearIns)
        refine stuck.ready_inserted fun x _ y _ notBefore below _ => ?_
        have ahead := aheadI.of_not_lt (not_lt.2 notBefore : ¬ Dir.forward.lt x i)
        exact Probe.cut_ahead.1 ahead below
      · refine choice_inserted_behind seeks near placedDel matchIns ?_ nearIns
        refine stuck.ready_inserted fun x deleted y deletedY notBefore below later => ?_
        refine safe (.inr ⟨stuck.someLive, fun l live => Probe.cut_behind.1 (stuck.before l live),
          stuck.beforeDel, matchIns, i, nearIns.mem, Probe.cut_behind.1 behindI, ?_, x, deleted,
          notBefore, below, y, deletedY, later⟩)
        intro j inside belowJ
        refine not_lt.1 fun past => ?_
        exact Probe.cut_ahead.1 (nearIns.of_behind.2.2 j inside past) belowJ
  cases pCurIns with
  | some i =>
    exact choice_no_match seeks near nearIns placedDel matchLive matchIns
      (by rintro ⟨⟩)
  | none =>
    cases nearIns with
    | nowhere noneIns =>
      cases pCur with
      | none =>
        exact choice_no_match seeks near (.nowhere noneIns) placedDel matchLive matchIns
          (by rintro - y ⟨⟩)
      | some l => exact stuck_alone_nothing near stuck noneIns matchLive

/-- Away from the failing inputs a forward prefix scan is right, wherever the seeks land. -/
theorem prefixForward_shown (safe : ¬ PrefixForwardFails ov record) (placed : Placed ov c) :
    PrefixShown moveto ov .seekGE record c := by
  obtain ⟨near, placedDel, settled⟩ :=
    seekShared_prefix_forward moveto record placed.del
  have nearIns := (moveto.lands .ins ov.ins (record.cut .forward)).near (d := .forward)
  rw [prefixShown_iff]
  dsimp only
  rcases settled with ready | stuck
  · exact choice_ready (.inl rfl) near nearIns placedDel ready fun fails => safe (.inl fails)
  · have lost := stuck.nowhere
    rw [lost] at stuck ⊢
    exact prefixForward_stuck near nearIns stuck safe

end Settled

section Failing

variable {ov : Overlay α} {record : Probe α} {c : BtCursor α}

/-- A deleted entry on the way to the block stops the scan. -/
theorem deletedBefore_fails (fails : DeletedBefore ov record) (placed : Placed ov c) :
    ∃ moveto, ¬ PrefixShown moveto ov .seekGE record c := by
  obtain ⟨someLive, below, beforeDel, match_, b, inserted, belowB, greatest, x, deleted, after,
    belowX, y, deletedY, later⟩ := fails
  let side : Tree → Dir := fun tree => if tree = .ins then .backward else .forward
  refine ⟨.ofSide side, ?_⟩
  have behind : ∀ {z}, record.cmp z = .lt → (record.cut .forward).Behind .forward z :=
    fun below => Probe.cut_behind.2 below
  -- The insertion cursor lands below the block.
  obtain ⟨j, landedIns, nearIns, reported⟩ := ofSide_near side .ins
    (fun x _ => Probe.cut_ne_eq) inserted (Probe.flip_ahead (d := .forward).2 (behind belowB))
  have belowJ : record.cmp j = .lt :=
    Probe.cut_behind.1 (Probe.flip_ahead (d := .forward).1 nearIns.of_ahead.2.1)
  have notPastX : j ≤ x := (greatest j nearIns.mem belowJ).trans after
  -- Past the key the shared tree has only deleted entries, so the seek lands on one.
  have prefers : ∀ a ∈ ov.live,
      (MovetoUnpacked.ofSide side).land .shared ov.shared (record.cut .forward) ≠ some a := by
    intro a live landed
    have lands := (MovetoUnpacked.ofSide (α := α) side).lands .shared ov.shared (record.cut .forward)
    rw [landed] at lands
    have inside := ov.del_subset deleted
    exact ofSide_not_behind side .shared landed inside
      (lands.behind (behind (below a live)) inside (beforeDel a live x deleted))
      (behind (below a live))
  have kept := Overlay.kept_of_live someLive.choose_spec
  have asked : Opcode.seekGE ≠ .zero := by decide
  have landing := seekShared_landing (.ofSide side) (.idxKey record Opcode.seekGE.direction) kept
    asked placed.del
  have sharp : (record.cut .forward).Sharp := Probe.cut_sharp
  obtain ⟨l, live, there, lost, reportedS⟩ := landing.stuck_down sharp someLive
    (fun l live => behind (below l live)) beforeDel prefers
  rw [prefixShown_iff]
  unfold ChoiceBlock
  rw [chooseCursor_trans (.inl rfl) (.inl (decide_eq_true match_))]
  rw [show Opcode.seekGE.dir = .forward from rfl, landedIns, reported, there, lost, reportedS]
  refine Meets.not_block (x := x) ?_
    ⟨ov.del_subset deleted, ?_, ?_, fun _ => ⟨j, rfl, not_lt.2 notPastX⟩⟩ (by rintro - ⟨⟩)
    (fun live => Overlay.not_mem_del_of_live live deleted) ?_
  · intro a z same notBefore notPast
    have behindX : record.Behind .forward x := belowX
    exact absurd same ((behindX.of_not_lt notPast).of_not_lt notBefore).apart
  · exact notPast_step (d := .forward) (ov.del_subset deleted) (beforeDel l live x deleted)
  · -- Sought again, the deletion cursor lands past the deleted entry.
    intro w landed
    have lands := (MovetoUnpacked.ofSide (α := α) side).lands .del ov.del (record.cut .forward)
    change (MovetoUnpacked.ofSide side).land .del ov.del (record.cut .forward) = some w at landed
    rw [landed] at lands
    by_contra notPast
    have sooner : w ≤ x := not_lt.1 notPast
    have behindW := (behind belowX).of_not_lt (not_lt.2 sooner : ¬ Dir.forward.lt x w)
    exact ofSide_not_behind side .del landed deletedY
      (lands.behind behindW deletedY (lt_of_le_of_lt sooner later)) behindW
  · obtain ⟨m, inside, same⟩ := match_
    exact ⟨m, .inr inside, same⟩

end Failing

/-- A forward prefix scan is right wherever the seeks land just when the input is not one of the
failing ones. -/
theorem prefixForward_iff {ov : Overlay α} {record : Probe α} :
    (∀ (moveto : MovetoUnpacked α) (c : BtCursor α), Placed ov c →
      PrefixShown moveto ov .seekGE record c) ↔ ¬ PrefixForwardFails ov record := by
  constructor
  · intro shown fails
    have placed : Placed ov ⟨none, none, none, .useShared⟩ := .nowhere
    rcases fails with liveFirst | deletedBefore
    · obtain ⟨moveto, notShown⟩ := liveFirst_fails .seekGE (.inl rfl) liveFirst
      exact notShown (shown moveto _ placed)
    · obtain ⟨moveto, notShown⟩ := deletedBefore_fails deletedBefore placed
      exact notShown (shown moveto _ placed)
  · exact fun safe moveto c placed => prefixForward_shown safe placed

end SQLumDash.Scan
