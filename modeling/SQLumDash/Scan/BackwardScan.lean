import SQLumDash.Scan.RowidScan

/-!
# Backward range scans

When `OP_SeekLE` and `OP_SeekLT` on a rowid table show exactly the transaction's view. The
side table picks the wrong cursor whenever both stand on the same side of the key, and the
seek that leaves a deleted row first walks forward, which may take the deletion cursor off
its end before the scan turns back.
-/

namespace SQLumDash.Scan

open OrderedCursor
open Probe (exact_sharp exact_eq exact_ahead)

variable {α : Type*} [LinearOrder α]

/-- Both trees have entries on one side of a key that neither has. -/
def SameSide (ov : Overlay α) (k : α) : Prop :=
  k ∉ ov.live ∧ k ∉ ov.ins ∧
    (((∃ l ∈ ov.live, l < k) ∧ ∃ i ∈ ov.ins, i < k) ∨
      ((∃ l ∈ ov.live, k < l) ∧ ∃ i ∈ ov.ins, k < i))

/-- The seek can land on a deleted row, no deleted row follows the first live one above the
key, and the scan gets to a deleted row. -/
def DeletedMet (ov : Overlay α) (k : α) : Prop :=
  (∃ a ∈ ov.del, Landed ov.shared (Probe.exact k) (some a)) ∧
    (∃ l ∈ ov.live, k < l ∧ (∀ m ∈ ov.live, k < m → l ≤ m) ∧ ∀ x ∈ ov.del, x < l) ∧
    (ov.ins = ∅ ∨ (k ∈ ov.ins ∧ ∃ x ∈ ov.del, x ≤ k))

/-- The inputs on which some landing makes a backward scan wrong. -/
def BackwardFails (ov : Overlay α) (k : α) : Prop := SameSide ov k ∨ DeletedMet ov k

/-- Where the search of the shared tree leaves the cursors of a backward scan. -/
structure BackwardSettled (ov : Overlay α) (k : α) (pCur pCurDel : Option α) (res : Int) :
    Prop where
  near : Near ov.live (Probe.exact k) .backward pCur res
  placedDel : ∀ x, pCurDel = some x → x ∈ ov.del
  /-- The deletion cursor is ready for the scan, or stuck. -/
  settled : DelReady ov .backward pCur pCurDel ∨
    ∃ l, BackwardStuck ov (Probe.exact k) pCur pCurDel l

section Settled

variable {moveto : MovetoUnpacked α} {ov : Overlay α} {opcode : Opcode} {c : BtCursor α} {k : α}
  {pCur pCurDel : Option α} {res : Int}

/-- Where the search of the shared tree ends, seen backward. -/
theorem SharedLanding.backward
    (landing : SharedLanding moveto ov (Probe.exact k) pCur pCurDel res) :
    BackwardSettled ov k pCur pCurDel res := by
  have sharp := exact_sharp k
  exact ⟨landing.near sharp, landing.placedDel, landing.backward_settled sharp⟩

/-- A stuck deletion cursor leaves deleted rows to be met. -/
theorem BackwardStuck.met {l : α} (stuck : BackwardStuck ov (Probe.exact k) pCur pCurDel l)
    (reached : ov.ins = ∅ ∨ (k ∈ ov.ins ∧ ∃ x ∈ ov.del, x ≤ k)) : DeletedMet ov k :=
  ⟨stuck.landed, ⟨l, stuck.live, exact_ahead.1 stuck.above,
    fun m inside later => stuck.least m inside (exact_ahead.2 later), stuck.beforeDel⟩,
    reached⟩

/-- The search of the shared tree, with or without a delete-all. -/
theorem seekShared_backward (asked : opcode ≠ .zero)
    (placed : ∀ x, c.pCurDel = some x → x ∈ ov.del) :
    let found := seekShared moveto ov (.intKey k) opcode c
    BackwardSettled ov k found.1.pCur found.1.pCurDel found.2.1 := by
  rcases seekShared_cases moveto (.intKey k) asked placed with
    ⟨kept, landing⟩ | ⟨noneLive, gone, placed', reported⟩
  · exact SharedLanding.backward landing
  · dsimp only
    rw [gone, reported]
    exact ⟨.nowhere noneLive, placed', .inl (by rintro y ⟨⟩)⟩

end Settled

section Backward

variable {moveto : MovetoUnpacked α} {ov : Overlay α} {opcode : Opcode} {k : α}
  {pCur pCurIns pCurDel : Option α} {state : CursorUse} {res resIns : Int}

/-- Two cursors next to an absent key can only be right on different sides of it. -/
theorem backward_choice_both {a i : α} (dir : opcode.dir = .backward) (seeks : opcode.Seeks)
    (absent : ∀ x, x ∈ ov.live ∨ x ∈ ov.ins → x ≠ k)
    (near : Near ov.live (Probe.exact k) opcode.dir (some a) res)
    (nearIns : Near ov.ins (Probe.exact k) opcode.dir (some i) resIns)
    (safe : ¬ SameSide ov k) :
    ChoiceShows moveto ov opcode k ⟨some a, some i, pCurDel, state⟩ res resIns := by
  have notLive : k ∉ ov.live := fun live => absent k (.inl live) rfl
  have notIns : k ∉ ov.ins := fun inserted => absent k (.inr inserted) rfl
  have apart := near.res_ne_zero fun x inside => absent x (.inl inside)
  have apartIns := nearIns.res_ne_zero fun x inside => absent x (.inr inside)
  have lt_iff : ∀ x y : α, opcode.dir.lt x y ↔ y < x := by
    intro x y
    rw [dir]
    exact Iff.rfl
  have below : ∀ {x}, (Probe.exact k).Ahead opcode.dir x → x < k := fun ahead =>
    (lt_iff k _).1 (exact_ahead.1 ahead)
  have above : ∀ {x}, (Probe.exact k).Behind opcode.dir x → k < x := fun behind =>
    (lt_iff _ k).1 (Probe.exact_behind.1 behind)
  have notBelow : ∀ {x y}, x ∈ ov.live → x < k → y ∈ ov.ins → ¬ y < k :=
    fun live sooner inserted sooner' =>
      safe ⟨notLive, notIns, .inl ⟨⟨_, live, sooner⟩, _, inserted, sooner'⟩⟩
  rcases near.sides apart with ⟨rfl, ahead⟩ | ⟨rfl, behind⟩ <;>
    rcases nearIns.sides apartIns with ⟨rfl, aheadIns⟩ | ⟨rfl, behindIns⟩
  · exact absurd (below aheadIns) (notBelow near.mem (below ahead) nearIns.mem)
  · rw [choice_ins_behind absent seeks near nearIns]
    exact fun x inside later => notBelow near.mem (below ahead) inside ((lt_iff k x).1 later)
  · rw [choice_shared_behind absent seeks (Overlay.kept_of_live near.mem) near nearIns]
    exact fun x inside later =>
      notBelow inside ((lt_iff k x).1 later) nearIns.mem (below aheadIns)
  · exact absurd ⟨notLive, notIns,
      .inr ⟨⟨a, near.mem, above behind⟩, i, nearIns.mem, above behindIns⟩⟩ safe

/-- Away from the failing inputs the choice of the leading cursor is right. -/
theorem BackwardSettled.choice (settled : BackwardSettled ov k pCur pCurDel res)
    (nearIns : Near ov.ins (Probe.exact k) .backward pCurIns resIns)
    (down : opcode.seeksDown = true) (safe : ¬ BackwardFails ov k) :
    ChoiceShows moveto ov opcode k ⟨pCur, pCurIns, pCurDel, state⟩ res resIns := by
  have dir : opcode.dir = .backward := by
    cases opcode <;> first | rfl | cases down
  have seeks : opcode.Seeks := .inr down
  have safeDel : ¬ DeletedMet ov k := fun fails => safe (.inr fails)
  have near : Near ov.live (Probe.exact k) opcode.dir pCur res := dir ▸ settled.near
  have nearIns' : Near ov.ins (Probe.exact k) opcode.dir pCurIns resIns := dir ▸ nearIns
  refine choice_of_cases seeks near nearIns' settled.placedDel ?_ ?_ ?_ ?_
  · intro inserted y there x deleted notBefore later
    rw [dir] at notBefore later ⊢
    rcases settled.settled with ready | ⟨l, stuck⟩
    · exact notPast_refetch (ready y there x deleted later)
    · exact absurd (stuck.met (.inr ⟨inserted, x, deleted, not_lt.1 notBefore⟩)) safeDel
  · intro live
    rw [dir]
    refine settled.settled.resolve_right fun ⟨l, stuck⟩ => ?_
    -- The seek to a live row lands on it.
    obtain ⟨a, deleted, lands⟩ := stuck.landed
    obtain ⟨b, same, here⟩ := lands.match (Overlay.live_subset live) (exact_eq.2 rfl)
    cases same
    exact Overlay.ne_of_del deleted live (exact_eq.1 here)
  · intro noneIns
    rw [dir]
    exact (settled.settled.resolve_right fun ⟨l, stuck⟩ =>
      safeDel (stuck.met (.inl noneIns))).refetch
  · rintro a i rfl rfl notLive notIns
    exact backward_choice_both dir seeks (absent_of_not_mem notLive notIns) near nearIns'
      fun fails => safe (.inl fails)

/-- Away from the failing inputs a backward scan is right, wherever the seeks land. -/
theorem backward_shown (down : opcode.seeksDown = true) (safe : ¬ BackwardFails ov k)
    {c : BtCursor α} (placed : Placed ov c) : RangeShown moveto ov opcode k c := by
  have asked := Opcode.Seeks.asked (.inr down)
  rw [rangeShown_iff]
  exact (seekShared_backward asked placed.del).choice (moveto.lands .ins ov.ins _).near down safe

end Backward

section Failing

variable {ov : Overlay α} {opcode : Opcode} {k : α} {c : BtCursor α}

/-- Below the key the cursor that comes last leads, above it the one that comes first. -/
theorem sameSide_backward {a i : α} {pCurDel : Option α} {state : CursorUse} {res : Int}
    (dir : opcode.dir = .backward) (reported : res = opcode.dir.sign ∨ res = -opcode.dir.sign) :
    sqlite3BtreeMovetoSameSide ov opcode ⟨some a, some i, pCurDel, state⟩ res res =
      (⟨some a, some i, pCurDel,
        if res = opcode.dir.sign then if opcode.dir.lt a i then .useTrans else .useShared
        else if opcode.dir.lt a i then .useShared else .useTrans⟩, res) := by
  rw [sameSide_same rfl rfl]
  by_cases before : opcode.dir.lt a i <;> rcases reported with rfl | rfl <;> rw [dir] at * <;>
    simp [Dir.sign, before]

/-- With entries of both trees on one side of the key the scan loses one, or starts too early. -/
theorem sameSide_fails (down : opcode.seeksDown = true) (fails : SameSide ov k)
    (placed : Placed ov c) : ∃ moveto, ¬ RangeShown moveto ov opcode k c := by
  obtain ⟨notLive, notIns, sides⟩ := fails
  have dir : opcode.dir = .backward := by
    cases opcode <;> first | rfl | cases down
  have seeks : opcode.Seeks := .inr down
  have absent := absent_of_not_mem notLive notIns
  have missing : ∀ x ∈ ov.ins, (Probe.exact k).cmp x ≠ .eq := fun x inside same =>
    absent x (.inr inside) (exact_eq.1 same)
  obtain ⟨side, l, live, j, inserted, beyond, beyondIns⟩ : ∃ side : Dir, ∃ l ∈ ov.live,
      ∃ j ∈ ov.ins, side.lt k l ∧ side.lt k j := by
    rcases sides with ⟨⟨l, live, before⟩, j, inserted, beforeIns⟩ |
      ⟨⟨l, live, after⟩, j, inserted, afterIns⟩
    · exact ⟨.backward, l, live, j, inserted, before, beforeIns⟩
    · exact ⟨.forward, l, live, j, inserted, after, afterIns⟩
  have kept := Overlay.kept_of_live live
  refine not_rangeShown (.ofSide fun _ => side) seeks kept placed ?_
  intro pCur pCurDel state res landing
  obtain ⟨b, landedIns, nearIns, reported⟩ :=
    ofSide_near (fun _ => side) .ins missing inserted (exact_ahead.2 beyondIns)
  rw [landedIns, reported]
  have near : Near ov.live (Probe.exact k) opcode.dir pCur res :=
    landing.near (exact_sharp k)
  cases pCur with
  | none =>
    cases near with
    | nowhere noneLive => exact absurd noneLive (Finset.ne_empty_of_mem live)
  | some a =>
    have apart := near.res_ne_zero fun x inside => absent x (.inl inside)
    cases side with
    | backward =>
      have sign : Dir.backward.sign = opcode.dir.sign := by rw [dir]
      rw [sign]
      have nearIns' : Near ov.ins (Probe.exact k) opcode.dir (some b) opcode.dir.sign :=
        dir ▸ nearIns
      have aheadIns := nearIns'.of_ahead.2.1
      rcases near.sides apart with ⟨rfl, ahead⟩ | ⟨rfl, -⟩
      · rw [choiceShows_iff seeks apart apart, sameSide_backward dir (.inl rfl), if_pos rfl]
        dsimp only
        exact not_shows_last absent seeks (placed_refetch fun x => MovetoUnpacked.land_mem _)
          (DelReady.refetch ready_landed) near.mem nearIns.mem (exact_ahead.1 ahead)
          (exact_ahead.1 aheadIns)
      · intro shown
        refine (choice_shared_behind absent seeks kept near nearIns').1 shown l live ?_
        rw [dir]
        exact beyond
    | forward =>
      have sign : Dir.forward.sign = -opcode.dir.sign := by rw [dir]; rfl
      rw [sign]
      have nearIns' : Near ov.ins (Probe.exact k) opcode.dir (some b) (-opcode.dir.sign) := by
        rw [dir]
        exact nearIns.flip
      have differs : -opcode.dir.sign ≠ opcode.dir.sign := by rw [dir]; decide
      rcases near.sides apart with ⟨-, ahead⟩ | ⟨rfl, -⟩
      · -- The seek prefers the rows above the key.
        rw [dir, exact_ahead] at ahead
        have below : (Probe.exact k).Behind .forward a := Probe.exact_behind.2 ahead
        have above : (Probe.exact k).Ahead .forward l := exact_ahead.2 beyond
        exact absurd below (ofSide_not_behind (fun _ => .forward) .shared
          (landing.of_below (exact_sharp k) rfl below live above)
          (Overlay.live_subset live) above)
      · rw [choiceShows_iff seeks apart apart, sameSide_backward dir (.inr rfl), if_neg differs]
        dsimp only
        exact not_shows_first absent seeks (placed_refetch fun x => MovetoUnpacked.land_mem _)
          (DelReady.refetch ready_landed) near nearIns'

/-- A stuck deletion cursor lets the scan show a deleted row. -/
theorem deletedMet_fails (down : opcode.seeksDown = true) (fails : DeletedMet ov k)
    (placed : Placed ov c) : ∃ moveto, ¬ RangeShown moveto ov opcode k c := by
  obtain ⟨⟨a, deleted, lands⟩, ⟨l, live, above, least, before⟩, rest⟩ := fails
  have dir : opcode.dir = .backward := by
    cases opcode <;> first | rfl | cases down
  have seeks : opcode.Seeks := .inr down
  have notGE : opcode ≠ .seekGE := by
    rintro rfl
    cases down
  let side : Tree → Dir := fun _ =>
    if (Probe.exact k).cmp a = .lt then .backward else .forward
  have landed : (MovetoUnpacked.ofSide side).land .shared ov.shared (Probe.exact k) = some a :=
    ofSide_land_eq (exact_sharp k) lands rfl
  refine not_rangeShown (.ofSide side) seeks (Overlay.kept_of_live live) placed ?_
  intro pCur pCurDel state res landing
  obtain ⟨rfl, rfl, rfl⟩ := landing.stuck_up (exact_sharp k) landed deleted live
    (exact_ahead.2 above) (fun m inside later => least m inside (exact_ahead.1 later))
    before
  have stray : ∀ x ∈ ov.del, x ∉ ov.live := fun x deleted isLive =>
    Overlay.not_mem_del_of_live isLive deleted
  have unfetched : ∀ z, refetchDel (.ofSide side) ov (Probe.exact k) opcode none = some z →
      ∀ x, opcode.dir.lt x z := by
    intro z absurd
    simp [refetchDel, notGE] at absurd
  rcases rest with noneIns | ⟨inserted, x, isDeleted, upTo⟩
  · rw [choiceShows_no_ins seeks (show (1 : Int) ≠ 0 by decide) noneIns]
    refine Meets.not_shows (x := a) ⟨ov.del_subset deleted, ⟨l, rfl, ?_⟩,
      fun z there => unfetched z there a, (by rintro ⟨⟩)⟩ (fun _ same => ?_)
      (stray a deleted)
    · rw [dir]
      exact lt_asymm (before a deleted)
    · cases same
      exact stray _ deleted live
  · have nearIns := ((MovetoUnpacked.ofSide (α := α) side).lands .ins ov.ins
      (Probe.exact k)).near (d := .forward)
    obtain ⟨here, zero⟩ := nearIns.eq_of_match (exact_sharp k) inserted (exact_eq.2 rfl)
    rw [zero, here]
    unfold ChoiceShows
    rw [chooseCursor_trans seeks (.inr rfl)]
    refine Meets.not_shows (x := x) ⟨ov.del_subset isDeleted, ?_,
      fun z there => unfetched z there x, fun _ => ⟨k, rfl, ?_⟩⟩ (by rintro - ⟨⟩)
      (stray x isDeleted)
    · rw [dir]
      exact notPast_step (d := .backward) (ov.del_subset isDeleted) (before x isDeleted)
    · rw [dir]
      exact not_lt.2 upTo

end Failing

/-- A backward range scan of a rowid table shows exactly the view's rows in the range, in
decreasing order and each once, wherever the seeks in the single trees land, just when the
input is not one of the failing ones. -/
theorem backwardScan_correct_iff (ov : Overlay Int) (opcode : Opcode) (k : Int)
    (down : opcode = .seekLE ∨ opcode = .seekLT) :
    (∀ (moveto : MovetoUnpacked Int) (c : BtCursor Int), Placed ov c →
      ∃ out, rangeScan moveto ov (.intKey k) opcode c = some out ∧
        Lists ov .backward (opcode.inRange k) out) ↔ ¬ BackwardFails ov k := by
  have seeksDown : opcode.seeksDown = true := by
    rcases down with rfl | rfl <;> rfl
  have dir : opcode.dir = .backward := by
    rcases down with rfl | rfl <;> rfl
  refine rangeShown_iff_not dir (fun fails c placed => ?_) fun safe moveto c placed =>
    backward_shown seeksDown safe placed
  rcases fails with sameSide | deletedMet
  · exact sameSide_fails seeksDown sameSide placed
  · exact deletedMet_fails seeksDown deletedMet placed

/-- The table with row 1 in the shared tree and row 2 inserted. -/
def oneThenInserted : Overlay Int where
  shared := {1}
  ins := {2}
  del := ∅
  deleteAll := false
  del_subset := by decide
  ins_disjoint := by decide

/-- From row 2, which is inserted, the scan of that table is right. -/
theorem backwardScan_correct_from_inserted :
    ¬ BackwardFails oneThenInserted 2 ∧
      ∀ (moveto : MovetoUnpacked Int) (c : BtCursor Int), Placed oneThenInserted c →
        ∃ out, rangeScan moveto oneThenInserted (.intKey 2) .seekLE c = some out ∧
          Lists oneThenInserted .backward (Opcode.seekLE.inRange 2) out := by
  have safe : ¬ BackwardFails oneThenInserted 2 := by
    rintro (⟨-, notIns, -⟩ | ⟨⟨a, deleted, -⟩, -⟩)
    · exact notIns (by decide)
    · exact absurd deleted (Finset.notMem_empty a)
  exact ⟨safe, (backwardScan_correct_iff oneThenInserted .seekLE 2 (.inl rfl)).2 safe⟩

/-- `OP_SeekLE` with key 3 loses row 2, though every seek can only land below the key. -/
theorem backwardScan_loses_row :
    let scan := rangeScan (.ofSide fun _ => .backward) oneThenInserted (.intKey 3) .seekLE
      ⟨none, none, none, .useShared⟩
    scan = some [⟨.useShared, 1⟩] ∧
      ¬ ∃ out, scan = some out ∧ Lists oneThenInserted .backward (Opcode.seekLE.inRange 3) out := by
  intro scan
  have shown : scan = some [⟨.useShared, 1⟩] := by decide +kernel
  refine ⟨shown, ?_⟩
  rintro ⟨out, scanned, lists⟩
  cases shown.symm.trans scanned
  have inserted : (2 : Int) ∈ oneThenInserted.ins := by decide
  have wanted : Opcode.seekLE.inRange 3 (2 : Int) := by change (2 : Int) ≤ 3; decide
  exact not_lists_of_lost (x := 2) (.inr inserted) wanted (by decide) lists

end SQLumDash.Scan
