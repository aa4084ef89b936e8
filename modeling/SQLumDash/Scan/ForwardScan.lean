import SQLumDash.Scan.RowidScan

/-!
# Forward range scans

When `OP_SeekGE` and `OP_SeekGT` on a rowid table show exactly the transaction's view, for
every way the seeks in the single trees may land. They do not when the two cursors land on
different sides of the key and both have entries past it: the later one is made to lead.
Nor do they when every live row lies before the key and before every deleted row: the seek
walks back over the deleted rows, leaves the deletion cursor at its end and the scan meets
them again.
-/

namespace SQLumDash.Scan

open OrderedCursor
open Probe (exact_sharp exact_behind exact_eq exact_ahead)

variable {α : Type*} [LinearOrder α]

/-- Both trees have entries past a key that neither has, and the seeks can land on different
sides of it. -/
def WrongLead (ov : Overlay α) (k : α) : Prop :=
  k ∉ ov.live ∧ k ∉ ov.ins ∧ (∃ l ∈ ov.live, k < l) ∧ (∃ i ∈ ov.ins, k < i) ∧
    ((∃ i ∈ ov.ins, i < k) ∨
      (k ∉ ov.shared ∧ ∃ p ∈ ov.live, p < k ∧ ∀ s ∈ ov.shared, s < k → s ≤ p))

/-- Every live row lies before the key and before every deleted row, and the scan gets to a
deleted row with the deletion cursor behind its back. -/
def DeletedShown (ov : Overlay α) (opcode : Opcode) (k : α) : Prop :=
  (∃ l, l ∈ ov.live) ∧ (∀ l ∈ ov.live, l < k) ∧ (∀ l ∈ ov.live, ∀ x ∈ ov.del, l < x) ∧
    match opcode with
    | .seekGE => ov.ins = ∅ ∧ (∃ x ∈ ov.del, x < k) ∧ ∃ x ∈ ov.del, ∃ y ∈ ov.del, x < y
    | _ => (ov.ins = ∅ ∧ ∃ x, x ∈ ov.del) ∨ (k ∈ ov.ins ∧ ∃ s ∈ ov.shared, k ≤ s)

/-- The inputs on which some landing makes a forward scan wrong. -/
def ForwardFails (ov : Overlay α) (opcode : Opcode) (k : α) : Prop :=
  WrongLead ov k ∨ DeletedShown ov opcode k

/-- Where the search of the shared tree leaves the cursors of a forward scan. -/
structure ForwardSettled (moveto : MovetoUnpacked α) (ov : Overlay α) (k : α)
    (pCur pCurDel : Option α) (res : Int) : Prop where
  near : Near ov.live (Probe.exact k) .forward pCur res
  placedDel : ∀ x, pCurDel = some x → x ∈ ov.del
  /-- The deletion cursor is ready for the scan, or stuck. -/
  settled : DelReady ov .forward pCur pCurDel ∨ ForwardStuck ov (Probe.exact k) pCurDel
  /-- Before the key, with a live row past it, the cursor is where the seek landed. -/
  landed : ∀ a, pCur = some a → a < k → (∃ l ∈ ov.live, k < l) →
    moveto.land .shared ov.shared (Probe.exact k) = some a

section Settled

variable {moveto : MovetoUnpacked α} {ov : Overlay α} {opcode : Opcode} {c : BtCursor α} {k : α}
  {pCur pCurDel : Option α} {res : Int}

/-- Where the search of the shared tree ends, seen forward. -/
theorem SharedLanding.forward (landing : SharedLanding moveto ov (Probe.exact k) pCur pCurDel res) :
    ForwardSettled moveto ov k pCur pCurDel res := by
  have sharp := exact_sharp k
  have near : Near ov.live (Probe.exact k) .forward pCur res := landing.near sharp
  refine ⟨near, landing.placedDel, landing.forward_settled sharp, ?_⟩
  rintro a there before ⟨l, live, after⟩
  exact landing.of_below sharp there (exact_behind.2 before) live (exact_ahead.2 after)

/-- The search of the shared tree, with or without a delete-all. -/
theorem seekShared_forward (moveto : MovetoUnpacked α) (asked : opcode ≠ .zero)
    (placed : ∀ x, c.pCurDel = some x → x ∈ ov.del) :
    let found := seekShared moveto ov (.intKey k) opcode c
    ForwardSettled moveto ov k found.1.pCur found.1.pCurDel found.2.1 := by
  rcases seekShared_cases moveto (.intKey k) asked placed with
    ⟨kept, landing⟩ | ⟨noneLive, gone, placed', reported⟩
  · exact SharedLanding.forward landing
  · dsimp only
    rw [gone, reported]
    exact ⟨.nowhere noneLive, placed', .inl (by rintro y ⟨⟩),
      (by rintro a ⟨⟩)⟩

end Settled

section Forward

variable {moveto : MovetoUnpacked α} {ov : Overlay α} {opcode : Opcode} {k : α}
  {pCur pCurIns pCurDel : Option α} {state : CursorUse} {res resIns : Int}

section

variable (settled : ForwardSettled moveto ov k pCur pCurDel res) (up : opcode.seeksUp = true)
  (safe : ¬ DeletedShown ov opcode k)

include settled up safe

/-- With an inserted key, the deletion cursor is right for what follows the key. -/
theorem ForwardSettled.ready_inserted (inserted : k ∈ ov.ins) :
    ∀ y, pCur = some y → ∀ x ∈ ov.del, ¬ x < k → y < x →
      NotPast .forward (refetchDel moveto ov (Probe.exact k) opcode pCurDel) x := by
  intro y there x deleted notBefore later
  rcases settled.settled with ready | stuck
  · exact notPast_refetch (ready y there x deleted later)
  · obtain rfl := stuck.nowhere
    cases opcode with
    | seekGE =>
      rcases eq_or_lt_of_le (not_lt.1 notBefore) with rfl | after
      · obtain ⟨z, landed, same⟩ :=
          (moveto.lands .del ov.del (Probe.exact k)).match deleted (exact_eq.2 rfl)
        rw [exact_eq] at same
        exact ⟨z, landed, by rw [same]; exact Dir.irrefl _ k⟩
      · exact (moveto.lands .del ov.del (Probe.exact k)).notPast deleted after
    | seekGT =>
      exact absurd ⟨stuck.someLive, fun l live => exact_behind.1 (stuck.before l live),
        stuck.beforeDel, .inr ⟨inserted, x, ov.del_subset deleted, not_lt.1 notBefore⟩⟩ safe
    | _ => cases up

/-- With nothing inserted, the deletion cursor is right for everything that follows. -/
theorem ForwardSettled.ready_alone (noneIns : ov.ins = ∅) :
    DelReady ov .forward pCur (refetchDel moveto ov (Probe.exact k) opcode pCurDel) := by
  rcases settled.settled with ready | stuck
  · exact ready.refetch
  · obtain rfl := stuck.nowhere
    have before : ∀ l ∈ ov.live, l < k := fun l live => exact_behind.1 (stuck.before l live)
    cases opcode with
    | seekGE =>
      intro y there x deleted later
      change NotPast .forward (moveto.land .del ov.del (Probe.exact k)) x
      have lands := moveto.lands .del ov.del (Probe.exact k)
      cases landed : moveto.land .del ov.del (Probe.exact k) with
      | none =>
        rw [landed] at lands
        exact absurd lands (Finset.ne_empty_of_mem deleted)
      | some z =>
        rw [landed] at lands
        refine ⟨z, rfl, fun past => safe ⟨stuck.someLive, before, stuck.beforeDel, noneIns, ?_, x,
          deleted, z, lands.mem, past⟩⟩
        -- A seek to the key that lands past `x` leaves `x` before the key.
        by_contra noneBefore
        have notBefore : ¬ x < k := fun before => noneBefore ⟨x, deleted, before⟩
        have ahead : (Probe.exact k).Ahead .forward z :=
          exact_ahead.2 (lt_of_le_of_lt (not_lt.1 notBefore) past)
        have behind := lands.ahead ahead deleted past
        exact notBefore (exact_behind.1 behind)
    | seekGT =>
      exact absurd ⟨stuck.someLive, before, stuck.beforeDel, .inl ⟨noneIns, stuck.someDel⟩⟩ safe
    | _ => cases up

end

/-- Two cursors next to an absent key: on one side the right one leads, on two sides one of them
ends. -/
theorem ForwardSettled.choice_both {a i : α}
    (settled : ForwardSettled moveto ov k (some a) pCurDel res) (dir : opcode.dir = .forward)
    (seeks : opcode.Seeks) (absent : ∀ x, x ∈ ov.live ∨ x ∈ ov.ins → x ≠ k)
    (near : Near ov.live (Probe.exact k) opcode.dir (some a) res)
    (nearIns : Near ov.ins (Probe.exact k) opcode.dir (some i) resIns)
    (safe : ¬ WrongLead ov k) :
    ChoiceShows moveto ov opcode k ⟨some a, some i, pCurDel, state⟩ res resIns := by
  have notLive : k ∉ ov.live := fun live => absent k (.inl live) rfl
  have notIns : k ∉ ov.ins := fun inserted => absent k (.inr inserted) rfl
  have apart := near.res_ne_zero fun x inside => absent x (.inl inside)
  have apartIns := nearIns.res_ne_zero fun x inside => absent x (.inr inside)
  have kept := Overlay.kept_of_live near.mem
  have lt_iff : ∀ x y : α, opcode.dir.lt x y ↔ x < y := by
    intro x y
    rw [dir]
    exact Iff.rfl
  rcases near.sides apart with ⟨rfl, ahead⟩ | ⟨rfl, behind⟩ <;>
    rcases nearIns.sides apartIns with ⟨rfl, aheadIns⟩ | ⟨rfl, behindIns⟩
  · rw [choiceShows_iff seeks apart apart, sameSide_same rfl rfl]
    have first := shows_first absent seeks (placed_landed moveto (Probe.exact k) opcode a)
      (DelReady.refetch ready_landed) near nearIns
    have order : (opcode.dir.lt a i ↔ opcode.dir.sign < 0) ↔ ¬ opcode.dir.lt a i := by
      rw [dir]
      simp [Dir.sign]
    simpa only [order, ite_not] using first
  · rw [choice_ins_behind absent seeks near nearIns]
    intro x inside later
    rw [exact_ahead, lt_iff] at ahead
    rw [exact_behind, lt_iff] at behindIns
    exact safe ⟨notLive, notIns, ⟨a, near.mem, ahead⟩, ⟨x, inside, (lt_iff k x).1 later⟩,
      .inl ⟨i, nearIns.mem, behindIns⟩⟩
  · rw [choice_shared_behind absent seeks kept near nearIns]
    intro x inside later
    rw [exact_behind, lt_iff] at behind
    rw [exact_ahead, lt_iff] at aheadIns
    rw [lt_iff] at later
    have lands := moveto.lands .shared ov.shared (Probe.exact k)
    rw [settled.landed a rfl behind ⟨x, inside, later⟩] at lands
    have next : ∀ s ∈ ov.shared, a < s → k < s := fun s within after =>
      exact_ahead.1 (lands.behind (d := .forward) (exact_behind.2 behind) within after)
    have notShared : k ∉ ov.shared := fun within => lt_irrefl k (next k within behind)
    have pred : ∀ s ∈ ov.shared, s < k → s ≤ a := fun s within sooner =>
      not_lt.1 fun after => lt_asymm sooner (next s within after)
    exact safe ⟨notLive, notIns, ⟨x, inside, later⟩, ⟨i, nearIns.mem, aheadIns⟩,
      .inr ⟨notShared, a, near.mem, behind, pred⟩⟩
  · rw [choiceShows_iff seeks apart apart, sameSide_same rfl rfl]
    have last := shows_last absent seeks (placed_landed moveto (Probe.exact k) opcode a)
      (DelReady.refetch ready_landed) near nearIns
    have order : (opcode.dir.lt a i ↔ -opcode.dir.sign < 0) ↔ opcode.dir.lt a i := by
      rw [dir]
      simp [Dir.sign]
    simpa only [order] using last

/-- Away from the failing inputs the choice of the leading cursor is right. -/
theorem ForwardSettled.choice (settled : ForwardSettled moveto ov k pCur pCurDel res)
    (nearIns : Near ov.ins (Probe.exact k) .forward pCurIns resIns)
    (up : opcode.seeksUp = true) (safe : ¬ ForwardFails ov opcode k) :
    ChoiceShows moveto ov opcode k ⟨pCur, pCurIns, pCurDel, state⟩ res resIns := by
  have dir : opcode.dir = .forward := by simp only [Opcode.dir, up, if_true]
  have seeks : opcode.Seeks := .inl up
  have safeDel : ¬ DeletedShown ov opcode k := fun fails => safe (.inr fails)
  have near : Near ov.live (Probe.exact k) opcode.dir pCur res := dir ▸ settled.near
  have nearIns' : Near ov.ins (Probe.exact k) opcode.dir pCurIns resIns := dir ▸ nearIns
  refine choice_of_cases seeks near nearIns' settled.placedDel ?_ ?_ ?_ ?_
  · rw [dir]
    exact settled.ready_inserted up safeDel
  · intro live
    rw [dir]
    refine settled.settled.resolve_right fun stuck => ?_
    exact lt_irrefl k (exact_behind.1 (stuck.before k live))
  · rw [dir]
    exact settled.ready_alone up safeDel
  · rintro a i rfl rfl notLive notIns
    exact settled.choice_both dir seeks (absent_of_not_mem notLive notIns) near nearIns'
      fun fails => safe (.inl fails)

/-- Away from the failing inputs a forward scan is right, wherever the seeks land. -/
theorem forward_shown (up : opcode.seeksUp = true) (safe : ¬ ForwardFails ov opcode k)
    {c : BtCursor α} (placed : Placed ov c) : RangeShown moveto ov opcode k c := by
  have asked := Opcode.Seeks.asked (.inl up)
  rw [rangeShown_iff]
  exact (seekShared_forward moveto asked placed.del).choice (moveto.lands .ins ov.ins _).near up safe

end Forward

section Failing

variable {ov : Overlay α} {opcode : Opcode} {k : α} {c : BtCursor α}

/-- With the cursors on different sides and entries past the key in both trees, the scan loses
one. -/
theorem wrongLead_fails (up : opcode.seeksUp = true) (fails : WrongLead ov k)
    (placed : Placed ov c) : ∃ moveto, ¬ RangeShown moveto ov opcode k c := by
  obtain ⟨notLive, notIns, ⟨l, live, afterLive⟩, ⟨j, inserted, afterIns⟩, split⟩ := fails
  have dir : opcode.dir = .forward := by simp only [Opcode.dir, up, if_true]
  have seeks : opcode.Seeks := .inl up
  have kept := Overlay.kept_of_live live
  have absent := absent_of_not_mem notLive notIns
  have missing : ∀ x ∈ ov.ins, (Probe.exact k).cmp x ≠ .eq := fun x inside same =>
    absent x (.inr inside) (exact_eq.1 same)
  rcases split with ⟨i, insideIns, before⟩ | ⟨notShared, p, livePred, before, pred⟩
  · -- The insertion cursor lands before the key, the shared one past it.
    let side : Tree → Dir := fun tree => if tree = .ins then .backward else .forward
    refine not_rangeShown (.ofSide side) seeks kept placed ?_
    intro pCur pCurDel state res landing
    obtain ⟨b, landedIns, nearIns, reported⟩ :=
      ofSide_near side .ins missing insideIns (exact_ahead.2 before)
    have reported' : (Probe.exact k).pRes (some b) = -opcode.dir.sign := by
      rw [dir]
      exact reported
    rw [landedIns, reported']
    have near : Near ov.live (Probe.exact k) opcode.dir pCur res :=
      landing.near (exact_sharp k)
    have nearIns' : Near ov.ins (Probe.exact k) opcode.dir (some b) (-opcode.dir.sign) := by
      rw [dir]
      exact nearIns.flip
    cases pCur with
    | none =>
      cases near with
      | nowhere noneLive => exact absurd noneLive (Finset.ne_empty_of_mem live)
    | some a =>
      rcases near.sides (near.res_ne_zero fun x inside => absent x (.inl inside)) with
        ⟨rfl, ahead⟩ | ⟨rfl, behind⟩
      · intro shown
        refine (choice_ins_behind absent seeks near nearIns').1 shown j inserted ?_
        rw [dir]
        exact afterIns
      · rw [dir] at behind
        have above : (Probe.exact k).Ahead .forward l := exact_ahead.2 afterLive
        exact absurd behind (ofSide_not_behind side .shared
          (landing.of_below (exact_sharp k) rfl behind live above)
          (Overlay.live_subset live) above)
  · -- The shared cursor lands before the key, the insertion cursor past it.
    let side : Tree → Dir := fun tree => if tree = .ins then .forward else .backward
    refine not_rangeShown (.ofSide side) seeks kept placed ?_
    intro pCur pCurDel state res landing
    obtain ⟨b, landedIns, nearIns, reported⟩ :=
      ofSide_near side .ins missing inserted (exact_ahead.2 afterIns)
    have missingShared : ∀ x ∈ ov.shared, (Probe.exact k).cmp x ≠ .eq := by
      intro x inside same
      rw [exact_eq.1 same] at inside
      exact notShared inside
    obtain ⟨a, landed, nearShared, -⟩ := ofSide_near side .shared
      missingShared (Overlay.live_subset livePred) (exact_ahead.2 before)
    obtain ⟨inside, behind, nearest⟩ := nearShared.of_ahead
    obtain rfl : a = p := by
      refine le_antisymm (pred a inside (exact_ahead.1 behind)) (not_lt.1 ?_)
      refine nearest p (Overlay.live_subset livePred) fun past => ?_
      exact lt_asymm before (exact_behind.1 past)
    have reported' : (Probe.exact k).pRes (some b) = opcode.dir.sign := by
      rw [dir]
      exact reported
    rw [landedIns, reported']
    obtain rfl : pCur = some a := landing.of_live landed livePred
    have near : Near ov.live (Probe.exact k) opcode.dir (some a) res :=
      landing.near (exact_sharp k)
    have nearIns' : Near ov.ins (Probe.exact k) opcode.dir (some b) opcode.dir.sign := by
      rw [dir]
      exact nearIns
    rcases near.sides (near.res_ne_zero fun x inside => absent x (.inl inside)) with
      ⟨-, ahead⟩ | ⟨rfl, -⟩
    · rw [dir] at ahead
      exact absurd (exact_ahead.1 ahead) (lt_asymm before)
    · intro shown
      refine (choice_shared_behind absent seeks kept near nearIns').1 shown l live ?_
      rw [dir]
      exact afterLive

/-- A stuck deletion cursor lets the scan show a deleted row. -/
theorem deletedShown_fails (up : opcode.seeksUp = true) (fails : DeletedShown ov opcode k)
    (placed : Placed ov c) : ∃ moveto, ¬ RangeShown moveto ov opcode k c := by
  obtain ⟨someLive, before, beforeDel, rest⟩ := fails
  have seeks : opcode.Seeks := .inl up
  have beyond : ∃ x ∈ ov.shared, ∀ l ∈ ov.live, l < x := by
    have deleted : ∀ x ∈ ov.del, ∃ x ∈ ov.shared, ∀ l ∈ ov.live, l < x := fun x deleted =>
      ⟨x, ov.del_subset deleted, fun l live => beforeDel l live x deleted⟩
    cases opcode with
    | seekGE =>
      obtain ⟨-, ⟨x, deleted', -⟩, -⟩ := rest
      exact deleted x deleted'
    | seekGT =>
      rcases rest with ⟨-, x, deleted'⟩ | ⟨-, s, inside, notBefore⟩
      · exact deleted x deleted'
      · exact ⟨s, inside, fun l live => lt_of_lt_of_le (before l live) notBefore⟩
    | _ => cases up
  have prefers : ∀ a ∈ ov.live, (MovetoUnpacked.ofSide fun _ => .forward).land .shared ov.shared
      (Probe.exact k) ≠ some a := by
    -- A live row lies before the key, and the seek prefers the row past it.
    intro a isLive landed
    obtain ⟨x, inside, past⟩ := beyond
    have lands := (MovetoUnpacked.ofSide (α := α) fun _ => .forward).lands .shared ov.shared
      (Probe.exact k)
    rw [landed] at lands
    have behind : (Probe.exact k).Behind .forward a := exact_behind.2 (before a isLive)
    exact ofSide_not_behind _ _ landed inside (lands.behind behind inside (past a isLive)) behind
  refine not_rangeShown (.ofSide fun _ => .forward) seeks
    (Overlay.kept_of_live someLive.choose_spec) placed ?_
  intro pCur pCurDel state res landing
  obtain ⟨l, live, rfl, rfl, rfl⟩ := landing.stuck_down (exact_sharp k) someLive
    (fun l live => exact_behind.2 (before l live)) beforeDel prefers
  have stray : ∀ x ∈ ov.del, x ∉ ov.live := fun x deleted isLive =>
    Overlay.not_mem_del_of_live isLive deleted
  cases opcode with
  | seekGE =>
    obtain ⟨noneIns, ⟨x, deletedX, beforeX⟩, y, deletedY, z, deletedZ, order⟩ := rest
    rw [choiceShows_no_ins seeks (show (-1 : Int) ≠ 0 by decide) noneIns]
    obtain ⟨m, first⟩ := exists_first (d := .forward) deletedX
    obtain ⟨deletedM, least⟩ := first_eq_some_iff.1 first
    refine Meets.not_shows (x := m) ⟨ov.del_subset deletedM, ⟨l, rfl, ?_⟩, ?_,
      (by rintro ⟨⟩)⟩ (fun _ same => ?_) (stray m deletedM)
    · exact Dir.asymm (beforeDel l live m deletedM)
    · -- Sought again, the deletion cursor lands past the first deleted row.
      intro w landed
      have lands := (MovetoUnpacked.ofSide (α := α) fun _ => .forward).lands .del ov.del
        (Probe.exact k)
      change (MovetoUnpacked.ofSide fun _ => Dir.forward).land .del ov.del (Probe.exact k) = some w
        at landed
      rw [landed] at lands
      refine Dir.lt_of_not_lt_of_ne (least w lands.mem) ?_
      rintro rfl
      have behind : (Probe.exact k).Behind .forward w :=
        exact_behind.2 (lt_of_le_of_lt (not_lt.1 (least x deletedX)) beforeX)
      have later : w < z := lt_of_le_of_lt (not_lt.1 (least y deletedY)) order
      exact ofSide_not_behind _ _ landed deletedZ (lands.behind behind deletedZ later) behind
    · cases same
      exact stray l deletedM live
  | seekGT =>
    rcases rest with ⟨noneIns, x, deleted⟩ | ⟨inserted, s, inside, notBefore⟩
    · rw [choiceShows_no_ins seeks (show (-1 : Int) ≠ 0 by decide) noneIns]
      refine Meets.not_shows (x := x) ⟨ov.del_subset deleted, ⟨l, rfl, ?_⟩,
        (by rintro z ⟨⟩), (by rintro ⟨⟩)⟩ (fun _ same => ?_)
        (stray x deleted)
      · exact Dir.asymm (beforeDel l live x deleted)
      · cases same
        exact stray l deleted live
    · have landedIns := ((MovetoUnpacked.ofSide (α := α) fun _ => .forward).lands .ins ov.ins
        (Probe.exact k)).near (d := .forward)
      obtain ⟨here, zero⟩ := landedIns.eq_of_match (exact_sharp k) inserted (exact_eq.2 rfl)
      rw [zero, here]
      unfold ChoiceShows
      rw [chooseCursor_trans seeks (.inr rfl)]
      have later : l < s := lt_of_lt_of_le (before l live) notBefore
      refine Meets.not_shows (x := s) ⟨inside, ?_, (by rintro z ⟨⟩), fun _ =>
        ⟨k, rfl, not_lt.2 notBefore⟩⟩ (by rintro - ⟨⟩) fun isLive => ?_
      · exact notPast_step (d := .forward) inside later
      · exact not_lt.2 notBefore (before s isLive)
  | _ => cases up

end Failing

/-- A forward range scan of a rowid table shows exactly the view's rows in the range, in order
and each once, wherever the seeks in the single trees land, just when the input is not one of
the failing ones. -/
theorem forwardScan_correct_iff (ov : Overlay Int) (opcode : Opcode) (k : Int)
    (up : opcode = .seekGE ∨ opcode = .seekGT) :
    (∀ (moveto : MovetoUnpacked Int) (c : BtCursor Int), Placed ov c →
      ∃ out, rangeScan moveto ov (.intKey k) opcode c = some out ∧
        Lists ov .forward (opcode.inRange k) out) ↔ ¬ ForwardFails ov opcode k := by
  have seeksUp : opcode.seeksUp = true := by
    rcases up with rfl | rfl <;> rfl
  have dir : opcode.dir = .forward := by
    rcases up with rfl | rfl <;> rfl
  refine rangeShown_iff_not dir (fun fails c placed => ?_) fun safe moveto c placed =>
    forward_shown seeksUp safe placed
  rcases fails with wrongLead | deletedShown
  · exact wrongLead_fails seeksUp wrongLead placed
  · exact deletedShown_fails seeksUp deletedShown placed

/-- The table with row 3 in the shared tree and rows 1, 5 and 6 inserted. -/
def threeAmongInserted : Overlay Int where
  shared := {3}
  ins := {1, 5, 6}
  del := ∅
  deleteAll := false
  del_subset := by decide
  ins_disjoint := by decide

/-- From row 5, which is inserted, the scan of that table is right. -/
theorem forwardScan_correct_from_inserted :
    ¬ ForwardFails threeAmongInserted .seekGE 5 ∧
      ∀ (moveto : MovetoUnpacked Int) (c : BtCursor Int), Placed threeAmongInserted c →
        ∃ out, rangeScan moveto threeAmongInserted (.intKey 5) .seekGE c = some out ∧
          Lists threeAmongInserted .forward (Opcode.seekGE.inRange 5) out := by
  have safe : ¬ ForwardFails threeAmongInserted .seekGE 5 := by
    rintro (⟨-, notIns, -⟩ | ⟨-, -, -, noneIns, -⟩)
    · exact notIns (by decide)
    · exact absurd noneIns (by decide)
  exact ⟨safe, (forwardScan_correct_iff threeAmongInserted .seekGE 5 (.inl rfl)).2 safe⟩

/-- `OP_SeekGE` with key 2 loses row 3 when the seek in the insertion tree lands on row 1. -/
theorem forwardScan_loses_row :
    let scan := rangeScan (.ofSide fun tree => if tree = .ins then .backward else .forward)
      threeAmongInserted (.intKey 2) .seekGE ⟨none, none, none, .useShared⟩
    scan = some [⟨.useTrans, 5⟩, ⟨.useTrans, 6⟩] ∧
      ¬ ∃ out, scan = some out ∧
        Lists threeAmongInserted .forward (Opcode.seekGE.inRange 2) out := by
  intro scan
  have shown : scan = some [⟨.useTrans, 5⟩, ⟨.useTrans, 6⟩] := by decide +kernel
  refine ⟨shown, ?_⟩
  rintro ⟨out, scanned, lists⟩
  cases shown.symm.trans scanned
  have live : (3 : Int) ∈ threeAmongInserted.live := by decide
  have wanted : Opcode.seekGE.inRange 2 (3 : Int) := by change (2 : Int) ≤ 3; decide
  exact not_lists_of_lost (x := 3) (.inl live) wanted (by decide) lists

end SQLumDash.Scan
