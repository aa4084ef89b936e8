import SQLumDash.Scan.PrefixScan

/-!
# Backward prefix scans

When `OP_SeekLE` with a prefix shows exactly the view's entries with the prefix. As in the
forward direction it does not when a live match comes before the inserted ones. Nor does it
when the seek leaves a deleted entry upward and loses the deletion cursor, and the scan then
gets to a deleted entry before the end of the block: here the deletion cursor is not sought
again. Deleted entries past the end of the block do no harm, and are cut out of the overlay
to see that.
-/

namespace SQLumDash.Scan

open OrderedCursor
open Probe (cut_behind flip_behind cut_sharp not_behind_of_eq behind_or_ahead)

variable {α : Type*} [LinearOrder α]

section

variable (ov : Overlay α) (record : Probe α)

/-- The seek can land on a deleted entry, and no deleted entry follows the first live one above
the block. -/
def LosesDel : Prop :=
  (∃ a ∈ ov.del, Landed ov.shared (record.cut .backward) (some a)) ∧
    ∃ l ∈ ov.live, record.cmp l = .gt ∧ (∀ m ∈ ov.live, record.cmp m = .gt → l ≤ m) ∧
      ∀ x ∈ ov.del, x < l

/-- A deleted entry is met before the scan has shown the block. -/
def DeletedInBlock : Prop :=
  (∃ i ∈ ov.ins, record.cmp i = .eq ∧ ∃ x ∈ ov.del, record.cmp x = .eq ∧ x ≤ i) ∨
  (hasMatch record ov.ins ∧ ∃ b ∈ ov.ins, record.cmp b = .gt ∧
    (∀ j ∈ ov.ins, record.cmp j = .gt → b ≤ j) ∧ ∃ x ∈ ov.del, record.cmp x ≠ .lt ∧ x ≤ b) ∨
  (¬ hasMatch record ov.ins ∧ hasMatch record ov.live)

/-- Nothing is inserted, the only matches are deleted, and no deleted entry lies above them. -/
def OnlyDeleted : Prop :=
  ov.ins = ∅ ∧ ¬ hasMatch record ov.live ∧ hasMatch record ov.del ∧
    (∃ l ∈ ov.live, record.cmp l = .gt) ∧ ∀ x ∈ ov.del, record.cmp x ≠ .gt

/-- The inputs on which some landing makes a backward prefix scan wrong. -/
def PrefixBackwardFails : Prop :=
  LiveFirst ov .backward record ∨ (LosesDel ov record ∧ DeletedInBlock ov record) ∨
    OnlyDeleted ov record

/-- The overlay without the deleted entries below the block. -/
def Overlay.cutBelow : Overlay α where
  shared := ov.shared.filter fun x => ¬ (x ∈ ov.del ∧ record.cmp x = .lt)
  ins := ov.ins
  del := ov.del.filter fun x => ¬ record.cmp x = .lt
  deleteAll := ov.deleteAll
  del_subset := by
    intro x deleted
    obtain ⟨inside, notBelow⟩ := Finset.mem_filter.1 deleted
    exact Finset.mem_filter.2 ⟨ov.del_subset inside, fun both => notBelow both.2⟩
  ins_disjoint := by
    rw [Finset.disjoint_left]
    intro x inserted live
    obtain ⟨inside, kept⟩ := Finset.mem_sdiff.1 live
    obtain ⟨shared, outside⟩ := Finset.mem_filter.1 inside
    refine Finset.disjoint_left.1 ov.ins_disjoint inserted (Finset.mem_sdiff.2 ⟨shared, ?_⟩)
    intro deleted
    exact kept (Finset.mem_filter.2 ⟨deleted, fun below => outside ⟨deleted, below⟩⟩)

end

section Cut

variable {ov : Overlay α} {record : Probe α}

/-- Cutting out deleted entries leaves the live ones. -/
theorem cutBelow_live : (ov.cutBelow record).live = ov.live := by
  have sdiff : (ov.cutBelow record).shared \ (ov.cutBelow record).del = ov.shared \ ov.del := by
    ext x
    simp only [Overlay.cutBelow, Finset.mem_sdiff, Finset.mem_filter]
    tauto
  unfold Overlay.live
  rw [sdiff]
  rfl

/-- Above the end of the block nothing is cut. -/
theorem sameUntil_cutBelow (ov : Overlay α) (record : Probe α) :
    SameUntil .backward (fun x => ¬ record.cmp x = .lt) ov (ov.cutBelow record) := by
  refine ⟨?_, ?_, rfl⟩
  · intro x y notBelow later below
    have ahead : record.Ahead .backward x := below
    exact notBelow (ahead.of_not_lt (Dir.asymm later))
  · intro x notBelow
    simp [Overlay.cutBelow, notBelow]

end Cut

section Settled

variable {moveto : MovetoUnpacked α} {ov : Overlay α} {record : Probe α} {c : BtCursor α} {l i : α}
  {pCur pCurIns pCurDel : Option α} {state : CursorUse} {res resIns : Int}

/-- Only such inputs lose the deletion cursor. -/
theorem BackwardStuck.losesDel (stuck : BackwardStuck ov (record.cut .backward) pCur pCurDel l) :
    LosesDel ov record := by
  have above : ∀ {x}, record.cmp x = .gt ↔ (record.cut .backward).Ahead .forward x := fun {x} =>
    cut_behind.symm.trans (flip_behind (d := .forward))
  refine ⟨stuck.landed, l, stuck.live, above.2 stuck.above, fun m live higher => ?_, stuck.beforeDel⟩
  exact stuck.least m live (above.1 higher)

/-- Where the search of the shared tree leaves the cursors of a backward prefix scan. -/
theorem seekShared_prefix_backward (moveto : MovetoUnpacked α) (record : Probe α)
    (placed : ∀ x, c.pCurDel = some x → x ∈ ov.del) :
    let found := seekShared moveto ov (.idxKey record Opcode.seekLE.direction) .seekLE c
    Near ov.live (record.cut .backward) .backward found.1.pCur found.2.1 ∧
      (∀ x, found.1.pCurDel = some x → x ∈ ov.del) ∧
      (DelReady ov .backward found.1.pCur found.1.pCurDel ∨
        ∃ l, BackwardStuck ov (record.cut .backward) found.1.pCur found.1.pCurDel l) := by
  have asked : Opcode.seekLE ≠ .zero := by decide
  rcases seekShared_cases moveto (.idxKey record Opcode.seekLE.direction) asked placed with
    ⟨kept, landing⟩ | ⟨noneLive, gone, placed', reported⟩
  · have sharp : (record.cut .backward).Sharp := cut_sharp
    exact ⟨landing.near sharp, landing.placedDel, landing.backward_settled sharp⟩
  · dsimp only
    rw [gone, reported]
    exact ⟨.nowhere noneLive, placed', .inl (by rintro y ⟨⟩)⟩

/-- Without a deletion cursor the scan from an inserted entry shows the same of the block when
the deleted entries below it are cut out. -/
theorem choice_of_cutBelow (match_ : hasMatch record ov.ins) (inserted : i ∈ ov.ins)
    (notBelow : ¬ record.cmp i = .lt)
    (choice : ChoiceBlock moveto (ov.cutBelow record) .seekLE record ⟨some l, some i, none, state⟩ 1
      resIns) :
    ChoiceBlock moveto ov .seekLE record ⟨some l, some i, none, state⟩ 1 resIns := by
  have seeks : Opcode.seekLE.Seeks := .inr rfl
  unfold ChoiceBlock at choice ⊢
  rw [chooseCursor_trans seeks (.inl (decide_eq_true match_))]
  rw [chooseCursor_trans seeks (.inl (decide_eq_true
    (show hasMatch record (ov.cutBelow record).ins from match_)))] at choice
  have same := sameUntil_cutBelow ov record
  refine Twin.blockShows same cutBelow_live.symm ?_ ?_ (v := ⟨.useTrans, i⟩) rfl notBelow ?_ choice
  · refine ⟨fun x inside => ?_, rfl, rfl, rfl, rfl⟩
    exact same.filter (Dir.backward.lt l) inside
  · refine ⟨fun x moved => ?_, ?_, (by rintro x ⟨⟩)⟩
    · exact (step_eq_some_iff.1 (show step .backward ov.shared l = some x from moved)).1.1
    · rintro x ⟨⟩
      exact inserted
  · intro x match_ below
    rw [match_] at below
    cases below

/-- A lost deletion cursor does no harm after an inserted entry when no deleted one that is not
below the block comes after it. -/
theorem stuck_inserted (near : Near ov.live (record.cut .backward) .backward (some l) 1)
    (nearIns : Near ov.ins (record.cut .backward) .backward (some i) resIns)
    (match_ : hasMatch record ov.ins) (safe : ¬ LiveFirst ov .backward record)
    (clear : ∀ x ∈ ov.del, ¬ record.cmp x = .lt → ¬ x ≤ i) :
    ChoiceBlock moveto ov .seekLE record ⟨some l, some i, none, state⟩ 1 resIns := by
  have seeks : Opcode.seekLE.Seeks := .inr rfl
  have near' : Near (ov.cutBelow record).live (record.cut .backward) .backward (some l) 1 := by
    rw [cutBelow_live]
    exact near
  have placedDel : ∀ x, (none : Option α) = some x → x ∈ (ov.cutBelow record).del :=
    (by rintro x ⟨⟩)
  have ready : ∀ y, some l = some y → ∀ x ∈ (ov.cutBelow record).del, ¬ Dir.backward.lt x i →
      Dir.backward.lt y x → NotPast .backward (refetchDel moveto (ov.cutBelow record)
        (record.cut .backward) .seekLE none) x := by
    intro y _ x deleted notBefore _
    obtain ⟨inside, notBelow⟩ := Finset.mem_filter.1 deleted
    exact absurd (not_lt.1 notBefore) (clear x inside notBelow)
  rcases nearIns.sides nearIns.cut_ne_zero with ⟨rfl, ahead⟩ | ⟨rfl, behind⟩
  · refine choice_of_cutBelow match_ nearIns.mem ?_ ?_
    · rw [nearIns.match_of_ahead match_]
      decide
    · refine (choice_inserted_ahead seeks near' placedDel match_ ready nearIns).2 ?_
      rw [cutBelow_live]
      exact not_lt_of_not_liveFirst safe match_ nearIns
  · refine choice_of_cutBelow match_ nearIns.mem ?_
      (choice_inserted_behind seeks near' placedDel match_ ready nearIns)
    have above : record.cmp i = .gt := cut_behind.1 behind
    rw [above]
    decide

/-- With a lost deletion cursor and nothing inserted, the entry that comes first decides. -/
theorem stuck_alone (stuck : BackwardStuck ov (record.cut .backward) (some l) none l)
    (noneIns : ov.ins = ∅) (noneLive : ¬ hasMatch record ov.live)
    (safe : ¬ OnlyDeleted ov record) :
    ChoiceBlock moveto ov .seekLE record ⟨some l, none, none, state⟩ 1 (-1) := by
  have noMatchIns : ¬ hasMatch record ov.ins := by simp [hasMatch, noneIns]
  have noneView := noMatch_view noneLive noMatchIns
  unfold ChoiceBlock
  rw [chooseCursor_apart (.inr rfl) (not_seen noMatchIns (by decide))
    (not_seen noneLive (by decide))]
  have placed : Placed ov ⟨some l, none, none, .useShared⟩ := by
    refine ⟨?_, (by rintro x ⟨⟩), (by rintro x ⟨⟩)⟩
    rintro x ⟨⟩
    exact Overlay.live_subset stuck.live
  obtain ⟨out, scanned⟩ : ∃ out, scanFrom ov .backward true ⟨some l, none, none, .useShared⟩ =
    some out := scanFrom_ends placed
  refine ⟨out, scanned, ?_⟩
  rw [scanFrom_alone] at scanned
  cases moved : step .backward ov.shared l with
  | none =>
    rw [moved] at scanned
    cases scanned
    exact lists_nil noneView
  | some y =>
    rw [moved] at scanned
    obtain ⟨⟨inside, below⟩, nearest⟩ := step_eq_some_iff.1 moved
    by_cases same : record.cmp y = .eq
    · -- A match among the shared entries is deleted, and none is left above it.
      have deleted : y ∈ ov.del := by
        by_contra kept
        exact noneLive ⟨y, (Overlay.mem_live (Overlay.kept_of_live stuck.live)).2 ⟨inside, kept⟩,
          same⟩
      obtain ⟨-, l', live', above, -⟩ := stuck.losesDel
      refine absurd ⟨noneIns, noneLive, ⟨y, deleted, same⟩, ⟨l', live', above⟩, ?_⟩ safe
      intro x isDeleted higher
      have after : y < x := by
        have behind : record.Behind .backward x := higher
        exact behind.lt (not_behind_of_eq same)
      exact nearest x (ov.del_subset isDeleted) (stuck.beforeDel x isDeleted) after
    · rw [block_eq_nil (M := fun x => record.cmp x = .eq) scanned rfl same]
      exact lists_nil noneView

/-- Away from the failing inputs a lost deletion cursor does no harm. -/
theorem prefixBackward_stuck (near : Near ov.live (record.cut .backward) .backward (some l) res)
    (nearIns : Near ov.ins (record.cut .backward) .backward pCurIns resIns)
    (stuck : BackwardStuck ov (record.cut .backward) (some l) none l)
    (safe : ¬ PrefixBackwardFails ov record) :
    ChoiceBlock moveto ov .seekLE record ⟨some l, pCurIns, none, state⟩ res resIns := by
  obtain rfl : res = 1 := by
    rcases near.sides near.cut_ne_zero with ⟨-, ahead⟩ | ⟨reported, -⟩
    · exact absurd ahead (flip_behind (d := .forward).2 stuck.above).not_ahead
    · exact reported
  have safeLead : ¬ LiveFirst ov .backward record := fun fails => safe (.inl fails)
  have safeDel : ¬ DeletedInBlock ov record := fun fails =>
    safe (.inr (.inl ⟨stuck.losesDel, fails⟩))
  by_cases matchIns : hasMatch record ov.ins
  · cases pCurIns with
    | none =>
      cases nearIns with
      | nowhere noneIns => simp [hasMatch, noneIns] at matchIns
    | some i =>
      refine stuck_inserted near nearIns matchIns safeLead fun x deleted notBelow upTo => ?_
      rcases nearIns.sides nearIns.cut_ne_zero with ⟨rfl, ahead⟩ | ⟨rfl, behind⟩
      · have same := nearIns.match_of_ahead matchIns
        refine safeDel (.inl ⟨i, nearIns.mem, same, x, deleted, ?_, upTo⟩)
        by_contra apart
        have aheadX := (behind_or_ahead (d := .forward) apart).resolve_left notBelow
        exact (aheadX.of_not_lt (not_lt.2 upTo : ¬ Dir.forward.lt i x)).apart same
      · refine safeDel (.inr (.inl ⟨matchIns, i, nearIns.mem, cut_behind.1 behind, ?_, x,
          deleted, notBelow, upTo⟩))
        intro j inside above
        refine not_lt.1 fun sooner => ?_
        exact Probe.cut_ahead.1 (nearIns.of_behind.2.2 j inside sooner) above
  have matchLive : ¬ hasMatch record ov.live := fun matchLive =>
    safeDel (.inr (.inr ⟨matchIns, matchLive⟩))
  cases pCurIns with
  | some i =>
    exact choice_no_match (.inr rfl) near nearIns (by rintro x ⟨⟩) matchLive matchIns
      (by rintro ⟨⟩)
  | none =>
    cases nearIns with
    | nowhere noneIns =>
      exact stuck_alone stuck noneIns matchLive fun fails => safe (.inr (.inr fails))

/-- Away from the failing inputs a backward prefix scan is right, wherever the seeks land. -/
theorem prefixBackward_shown (safe : ¬ PrefixBackwardFails ov record) (placed : Placed ov c) :
    PrefixShown moveto ov .seekLE record c := by
  obtain ⟨near, placedDel, settled⟩ := seekShared_prefix_backward moveto record placed.del
  have nearIns := (moveto.lands .ins ov.ins (record.cut .backward)).near (d := .backward)
  rw [prefixShown_iff]
  dsimp only
  rcases settled with ready | ⟨l, stuck⟩
  · exact choice_ready (.inr rfl) near nearIns placedDel ready fun fails => safe (.inl fails)
  · have there := stuck.there
    have lost := stuck.nowhere
    rw [there] at near
    rw [there, lost] at stuck ⊢
    exact prefixBackward_stuck near nearIns stuck safe

end Settled

section Failing

variable {ov : Overlay α} {record : Probe α} {c : BtCursor α}

/-- The search of the shared tree ends on a live entry above the block without a deletion
cursor. -/
def StuckAt (moveto : MovetoUnpacked α) (ov : Overlay α) (record : Probe α) (c : BtCursor α)
    (l : α) : Prop :=
  let found := seekShared moveto ov (.idxKey record Opcode.seekLE.direction) .seekLE c
  found.1.pCur = some l ∧ found.1.pCurDel = none ∧ found.2.1 = 1

/-- The landing that loses the deletion cursor, with either side for the insertion tree. -/
theorem LosesDel.landing (loses : LosesDel ov record) (s : Dir) (placed : Placed ov c) :
    ∃ side : Tree → Dir, side .ins = s ∧ ∃ l ∈ ov.live, (∀ x ∈ ov.del, x < l) ∧
      (∀ m ∈ ov.live, record.cmp m = .gt → l ≤ m) ∧
      (∃ a ∈ ov.del, Landed ov.shared (record.cut .backward) (some a)) ∧
      StuckAt (.ofSide side) ov record c l := by
  obtain ⟨⟨a, deleted, lands⟩, l, live, above, least, before⟩ := loses
  let side : Tree → Dir := fun tree =>
    if tree = .ins then s else if (record.cut .backward).cmp a = .lt then .backward else .forward
  have sharp : (record.cut .backward).Sharp := cut_sharp
  have landed : (MovetoUnpacked.ofSide side).land .shared ov.shared (record.cut .backward) =
    some a := ofSide_land_eq sharp lands rfl
  have higher : ∀ {x}, record.cmp x = .gt ↔ (record.cut .backward).Ahead .forward x := fun {x} =>
    cut_behind.symm.trans (flip_behind (d := .forward))
  have asked : Opcode.seekLE ≠ .zero := by decide
  have landing := seekShared_landing (.ofSide side) (.idxKey record Opcode.seekLE.direction)
    (Overlay.kept_of_live live) asked placed.del
  refine ⟨side, rfl, l, live, before, least, ⟨a, deleted, lands⟩, ?_⟩
  exact landing.stuck_up sharp landed deleted live (higher.1 above)
    (fun m inside ahead => least m inside (higher.2 ahead)) before

/-- A deleted entry that is not below the block spoils a scan that meets it unnoticed. -/
theorem Meets.not_prefix {off : Bool} {x : α} (meets : Meets ov .backward c x)
    (elsewhere : off = true → c.current ≠ some ⟨.useShared, x⟩) (deleted : x ∈ ov.del)
    (notBelow : record.cmp x ≠ .lt) (wanted : ∃ y, (y ∈ ov.live ∨ y ∈ ov.ins) ∧ record.cmp y = .eq) :
    ¬ BlockShows ov .backward off c fun x => record.cmp x = .eq := by
  refine meets.not_block ?_ elsewhere (fun live => Overlay.not_mem_del_of_live live deleted) wanted
  intro a b same notBefore notPast
  by_contra apart
  rcases behind_or_ahead (d := .backward) apart with behind | ahead
  · exact (behind.of_not_lt notBefore).apart same
  · exact notBelow (ahead.of_not_lt notPast)

/-- With a match inserted, a deleted entry after the insertion cursor is met. -/
theorem deleted_after_inserted_fails {side : Tree → Dir} {l i x : α} {resIns : Int}
    (match_ : hasMatch record ov.ins)
    (landedIns : (MovetoUnpacked.ofSide side).land .ins ov.ins (record.cut .backward) = some i)
    (reported : (record.cut .backward).pRes (some i) = resIns)
    (found : StuckAt (.ofSide side) ov record c l) (deleted : x ∈ ov.del) (before : x < l)
    (notBelow : record.cmp x ≠ .lt) (upTo : x ≤ i) :
    ¬ PrefixShown (.ofSide side) ov .seekLE record c := by
  obtain ⟨there, lost, reportedS⟩ := found
  rw [prefixShown_iff]
  unfold ChoiceBlock
  rw [chooseCursor_trans (.inr rfl) (.inl (decide_eq_true match_))]
  rw [show Opcode.seekLE.dir = .backward from rfl, landedIns, reported, there, lost, reportedS]
  refine Meets.not_prefix (x := x) ⟨ov.del_subset deleted, ?_, (by rintro z ⟨⟩),
    fun _ => ⟨i, rfl, not_lt.2 upTo⟩⟩ (by rintro - ⟨⟩) deleted notBelow ?_
  · exact notPast_step (d := .backward) (ov.del_subset deleted) before
  · obtain ⟨m, inside, same⟩ := match_
    exact ⟨m, .inr inside, same⟩

/-- A lost deletion cursor and a deleted entry on the way spoil the scan. -/
theorem deletedInBlock_fails (loses : LosesDel ov record) (reached : DeletedInBlock ov record)
    (placed : Placed ov c) : ∃ moveto, ¬ PrefixShown moveto ov .seekLE record c := by
  rcases reached with ⟨i, inserted, same, x, deleted, sameX, upTo⟩ |
    ⟨match_, b, inserted, above, least, x, deleted, notBelow, upTo⟩ | ⟨noneIns, match_⟩
  · -- The insertion cursor starts on the last match.
    obtain ⟨side, prefers, l, -, before, -, -, found⟩ := loses.landing .backward placed
    have match_ : hasMatch record ov.ins := ⟨i, inserted, same⟩
    obtain ⟨j, landedIns, near, reported, -⟩ := near_inserted_match side prefers match_
    have last : i ≤ j := not_lt.1 (near.of_ahead.2.2 i inserted fun behind =>
      not_behind_of_eq same (cut_behind.1 behind))
    refine ⟨_, deleted_after_inserted_fails match_ landedIns reported found deleted
      (before x deleted) ?_ (upTo.trans last)⟩
    rw [sameX]
    decide
  · -- The insertion cursor starts above the block.
    obtain ⟨side, prefers, l, -, before, -, -, found⟩ := loses.landing .forward placed
    have ahead : (record.cut .backward).Ahead (side .ins) b := by
      rw [prefers]
      exact flip_behind (d := .forward).1 (cut_behind.2 above)
    obtain ⟨j, landedIns, near, reported⟩ :=
      ofSide_near side .ins (fun x _ => Probe.cut_ne_eq) inserted ahead
    have aboveJ : record.cmp j = .gt := by
      have aheadJ := near.of_ahead.2.1
      rw [prefers] at aheadJ
      exact cut_behind.1 (flip_behind (d := .forward).2 aheadJ)
    exact ⟨_, deleted_after_inserted_fails match_ landedIns reported found deleted
      (before x deleted) notBelow (upTo.trans (least j near.mem aboveJ))⟩
  · -- The shared cursor leads from the live entry above the block.
    obtain ⟨side, -, l, live, before, least, ⟨a, deleted, lands⟩, found⟩ :=
      loses.landing .forward placed
    obtain ⟨there, lost, reportedS⟩ := found
    refine ⟨.ofSide side, ?_⟩
    have nearIns := ((MovetoUnpacked.ofSide (α := α) side).lands .ins ov.ins
      (record.cut .backward)).near (d := .backward)
    rw [prefixShown_iff]
    unfold ChoiceBlock
    rw [show Opcode.seekLE.dir = .backward from rfl, chooseCursor_shared (.inr rfl)
      (not_seen noneIns nearIns.cut_ne_zero) (.inl (decide_eq_true match_))]
    rw [there, lost, reportedS]
    obtain ⟨m, liveM, same⟩ := match_
    refine Meets.not_prefix (x := a) ⟨ov.del_subset deleted, ⟨l, rfl, lt_asymm (before a deleted)⟩,
      (by rintro z ⟨⟩), (by rintro ⟨⟩)⟩ (fun _ shown => ?_) deleted ?_
      ⟨m, .inl liveM, same⟩
    · cases shown
      exact lt_irrefl _ (before _ deleted)
    · -- The entry the seek landed on is not below a match.
      intro below
      have behind : (record.cut .backward).cmp a = .lt := by
        simp only [Probe.cut, Probe.withDefault, below]
        rfl
      have later : a < m := by
        have belowA : record.Behind .forward a := below
        exact belowA.lt (not_behind_of_eq same)
      have past := lands.behind (d := .forward) behind (Overlay.live_subset liveM) later
      exact not_behind_of_eq same (cut_behind.1 (flip_behind (d := .forward).2 past))

/-- With only deleted matches the seek can lose the deletion cursor. -/
theorem OnlyDeleted.loses (fails : OnlyDeleted ov record) : LosesDel ov record := by
  obtain ⟨-, noneLive, ⟨x, deletedX, sameX⟩, ⟨l, live, above⟩, notAbove⟩ := fails
  have kept := Overlay.kept_of_live live
  -- The last deleted match, and the first live entry above the block.
  obtain ⟨a, last⟩ := exists_first (d := .backward) (mem_matching.2 ⟨deletedX, sameX⟩)
  obtain ⟨member, greatest⟩ := first_eq_some_iff.1 last
  obtain ⟨deleted, same⟩ := mem_matching.1 member
  obtain ⟨l', first⟩ := exists_first (d := .forward)
    (Finset.mem_filter.2 ⟨live, above⟩ : l ∈ ov.live.filter fun x => record.cmp x = .gt)
  obtain ⟨memberL, least⟩ := first_eq_some_iff.1 first
  obtain ⟨live', above'⟩ := Finset.mem_filter.1 memberL
  refine ⟨⟨a, deleted, ov.del_subset deleted, ?_⟩, l', live', above', fun m liveM aboveM => ?_,
    fun x isDeleted => ?_⟩
  · have below : (record.cut .backward).cmp a = .lt := by
      simp only [Probe.cut, Probe.withDefault, same, Dir.sign]
      decide
    rw [below]
    intro y inside later
    have notBelow : ¬ record.Behind .forward y := fun belowY =>
      not_behind_of_eq same (belowY.of_not_lt (lt_asymm later))
    by_contra notAboveY
    have sameY : record.cmp y = .eq := by
      by_contra apart
      have aheadY := (behind_or_ahead (d := .forward) apart).resolve_left notBelow
      exact notAboveY (Probe.flip_ahead (d := .backward).1
        (cut_behind.2 (flip_behind (d := .forward).2 aheadY)))
    by_cases isDeleted : y ∈ ov.del
    · exact greatest y (mem_matching.2 ⟨isDeleted, sameY⟩) later
    · exact noneLive ⟨y, (Overlay.mem_live kept).2 ⟨inside, isDeleted⟩, sameY⟩
  · exact not_lt.1 (least m (Finset.mem_filter.2 ⟨liveM, aboveM⟩))
  · have behind : record.Behind .backward l' := above'
    exact behind.lt fun aboveX => notAbove x isDeleted aboveX

/-- With only deleted matches, one of them is shown. -/
theorem onlyDeleted_fails (fails : OnlyDeleted ov record) (placed : Placed ov c) :
    ∃ moveto, ¬ PrefixShown moveto ov .seekLE record c := by
  obtain ⟨side, -, l, live, before, least, -, there, lost, reported⟩ :=
    fails.loses.landing .forward placed
  obtain ⟨noneIns, noneLive, ⟨x, deletedX, sameX⟩, -, notAbove⟩ := fails
  have noMatchIns : ¬ hasMatch record ov.ins := by simp [hasMatch, noneIns]
  refine ⟨.ofSide side, ?_⟩
  have landedIns : (MovetoUnpacked.ofSide side).land .ins ov.ins (record.cut .backward) = none := by
    rw [noneIns]
    rfl
  rw [prefixShown_iff]
  unfold ChoiceBlock
  have nowhere : (record.cut .backward).pRes none = -1 := rfl
  rw [show Opcode.seekLE.dir = .backward from rfl, landedIns, reported, nowhere,
    chooseCursor_apart (.inr rfl) (not_seen noMatchIns (by decide)) (not_seen noneLive (by decide))]
  rw [there, lost]
  change ¬ BlockShows ov .backward true ⟨some l, none, none, .useShared⟩ fun x => record.cmp x = .eq
  rintro ⟨out, scanned, lists⟩
  rw [scanFrom_alone] at scanned
  obtain ⟨y, moved, notPast⟩ :=
    notPast_step (d := .backward) (ov.del_subset deletedX) (before x deletedX)
  rw [moved] at scanned
  obtain ⟨⟨inside, below⟩, -⟩ := step_eq_some_iff.1 moved
  have stray : y ∉ ov.live ∧ record.cmp y ≠ .gt := by
    by_cases deleted : y ∈ ov.del
    · exact ⟨fun isLive => Overlay.not_mem_del_of_live isLive deleted, notAbove y deleted⟩
    · have isLive := (Overlay.mem_live (Overlay.kept_of_live live)).2 ⟨inside, deleted⟩
      have notAboveY : record.cmp y ≠ .gt := fun above => not_lt.2 (least y isLive above) below
      refine ⟨fun _ => noneLive ⟨y, isLive, ?_⟩, notAboveY⟩
      exact Probe.eq_of_before (d := .backward) notAboveY sameX notPast
  have same : record.cmp y = .eq := Probe.eq_of_before (d := .backward) stray.2 sameX notPast
  obtain ⟨rest, rfl⟩ := visits_head scanned rfl
  have member : ⟨.useShared, y⟩ ∈ block (fun x => record.cmp x = .eq) (⟨.useShared, y⟩ :: rest) := by
    unfold block
    rw [List.takeWhile_cons, if_pos (decide_eq_true same)]
    exact List.mem_cons_self
  exact not_lists_of_stray member stray.1 lists

end Failing

/-- A backward prefix scan is right wherever the seeks land just when the input is not one of the
failing ones. -/
theorem prefixBackward_iff {ov : Overlay α} {record : Probe α} :
    (∀ (moveto : MovetoUnpacked α) (c : BtCursor α), Placed ov c →
      PrefixShown moveto ov .seekLE record c) ↔ ¬ PrefixBackwardFails ov record := by
  constructor
  · intro shown fails
    have placed : Placed ov ⟨none, none, none, .useShared⟩ := .nowhere
    have notShown : ∃ moveto,
        ¬ PrefixShown moveto ov .seekLE record ⟨none, none, none, .useShared⟩ := by
      rcases fails with liveFirst | ⟨loses, reached⟩ | onlyDeleted
      · exact liveFirst_fails .seekLE (.inr rfl) liveFirst
      · exact deletedInBlock_fails loses reached placed
      · exact onlyDeleted_fails onlyDeleted placed
    obtain ⟨moveto, notShown⟩ := notShown
    exact notShown (shown moveto _ placed)
  · exact fun safe moveto c placed => prefixBackward_shown safe placed

end SQLumDash.Scan
