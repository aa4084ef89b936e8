import SQLumDash.Scan.ScanFaults
import Mathlib.Data.List.TakeWhile

/-!
# Scans of a block of entries

A prefix scan walks the block of entries that agree with a record and stops at the first
entry that does not. Every scan ends; entries after the block have no influence on it; and
what it shows follows from what the walk to the end would show.
-/

namespace SQLumDash.Scan

open OrderedCursor
open Option (map_eq_some_iff)

variable {α : Type*} [LinearOrder α] {ov : Overlay α} {d : Dir} {c : BtCursor α} {x : α}
  {visit : Visit α} {fuel : Nat} {out : List (Visit α)} {off : Bool}

section Ends

variable {t : Finset α}

/-- Moving on while a condition holds stays in the tree and never goes back. -/
theorem advanceWhile_ahead {p : α → Bool} (fuel : Nat) : ∀ {cursor : Option α},
    (∀ x, cursor = some x → x ∈ t) →
      (∀ x, advanceWhile d t p fuel cursor = some x → x ∈ t) ∧
        ahead d t (advanceWhile d t p fuel cursor) ≤ ahead d t cursor := by
  induction fuel with
  | zero => exact fun placed => ⟨placed, le_rfl⟩
  | succ fuel ih =>
    intro cursor placed
    cases cursor with
    | none => exact ⟨placed, le_rfl⟩
    | some y =>
      rw [advanceWhile]
      split_ifs
      · have rest := @ih (step d t y) fun x moved => (step_eq_some_iff.1 moved).1.1
        exact ⟨rest.1, rest.2.trans (ahead_step_lt (placed y rfl)).le⟩
      · exact ⟨placed, le_rfl⟩

/-- Skipping deleted entries stays in the trees and takes no entry back. -/
theorem seekToExistLoop_ahead {shared del : Finset α} (fuel : Nat) :
    ∀ {pCur pCurDel : Option α}, (∀ x, pCur = some x → x ∈ shared) →
      (∀ x, pCurDel = some x → x ∈ del) →
      let result := seekToExistLoop d shared del fuel pCur pCurDel
      (∀ x, result.1 = some x → x ∈ shared) ∧ (∀ x, result.2 = some x → x ∈ del) ∧
        ahead d shared result.1 ≤ ahead d shared pCur := by
  induction fuel with
  | zero => exact fun placed placedDel => ⟨placed, placedDel, le_rfl⟩
  | succ fuel ih =>
    intro pCur pCurDel placed placedDel
    cases pCur with
    | none => exact ⟨placed, placedDel, le_rfl⟩
    | some y =>
      cases pCurDel with
      | none => exact ⟨placed, placedDel, le_rfl⟩
      | some z =>
        rw [seekToExistLoop]
        split_ifs
        · exact ih placed fun x moved => (step_eq_some_iff.1 moved).1.1
        · have rest := @ih (step d shared y) (some z)
            (fun x moved => (step_eq_some_iff.1 moved).1.1) placedDel
          exact ⟨rest.1, rest.2.1, rest.2.2.trans (ahead_step_lt (placed y rfl)).le⟩
        · exact ⟨placed, placedDel, le_rfl⟩

/-- How many entries a cursor has still in front of it. -/
def BtCursor.remaining (ov : Overlay α) (d : Dir) (c : BtCursor α) : Nat :=
  ahead d ov.shared c.pCur + ahead d ov.ins c.pCurIns

/-- The fuel of a scan is more than what is in front of any position. -/
theorem remaining_lt : c.remaining ov d < ov.shared.card + ov.ins.card + 1 := by
  have bound : ∀ (t : Finset α) (cursor : Option α), ahead d t cursor ≤ t.card := by
    intro t cursor
    cases cursor with
    | none => exact Nat.zero_le _
    | some x => exact Finset.card_filter_le _ _
  have left := bound ov.shared c.pCur
  have right := bound ov.ins c.pCurIns
  unfold BtCursor.remaining
  omega

/-- Choosing the leading cursor keeps the positions in their trees and never goes back. -/
theorem seekToExistAll_remaining (placed : Placed ov c) :
    Placed ov (btreeSeekToExistAll ov d c).1 ∧
      (btreeSeekToExistAll ov d c).1.remaining ov d ≤ c.remaining ov d := by
  obtain ⟨shared, del, le⟩ := seekToExistLoop_ahead (d := d) (ov.shared.card + ov.del.card + 1)
    placed.shared placed.del
  have skipped : Placed ov (btreeSeekToExist ov d c) := ⟨shared, placed.ins, del⟩
  have le' : (btreeSeekToExist ov d c).remaining ov d ≤ c.remaining ov d :=
    Nat.add_le_add_right le _
  unfold btreeSeekToExistAll
  dsimp only
  cases leader d (btreeSeekToExist ov d c).pCur (btreeSeekToExist ov d c).pCurIns with
  | none => exact ⟨skipped, le'⟩
  | some use => exact ⟨⟨skipped.shared, skipped.ins, skipped.del⟩, le'⟩

/-- Letting the cursor that does not lead catch up never goes back. -/
theorem catchUp_remaining (placed : Placed ov c) :
    Placed ov (catchUp ov d c) ∧ (catchUp ov d c).remaining ov d ≤ c.remaining ov d ∧
      (catchUp ov d c).current = c.current ∧ (catchUp ov d c).state = c.state := by
  obtain ⟨pCur, pCurIns, pCurDel, state⟩ := c
  cases state with
  | useShared =>
    cases pCur with
    | none => exact ⟨placed, le_rfl, rfl, rfl⟩
    | some key =>
      have moved := advanceWhile_ahead (d := d) (p := (d.lt · key)) (ov.ins.card + 1) placed.ins
      exact ⟨⟨placed.shared, moved.1, placed.del⟩, Nat.add_le_add_left moved.2 _, rfl, rfl⟩
  | useTrans =>
    cases pCurIns with
    | none => exact ⟨placed, le_rfl, rfl, rfl⟩
    | some key =>
      have moved := advanceWhile_ahead (d := d) (p := (d.lt · key)) (ov.shared.card + 1)
        placed.shared
      exact ⟨⟨moved.1, placed.ins, placed.del⟩, Nat.add_le_add_right moved.2 _, rfl, rfl⟩

/-- One advance keeps the positions in their trees, and takes at least one entry. -/
theorem advanceAll_remaining (placed : Placed ov c) :
    Placed ov (sqlite3BtreeAdvanceAll ov d c).1 ∧
      (c.current ≠ none →
        (sqlite3BtreeAdvanceAll ov d c).1.remaining ov d < c.remaining ov d) := by
  obtain ⟨placed', le, current, state⟩ := catchUp_remaining (d := d) placed
  unfold sqlite3BtreeAdvanceAll
  rw [← current]
  generalize catchUp ov d c = caught at placed' le state
  cases lead : caught.state with
  | useShared =>
    have moved : Placed ov { caught with pCur := advance d ov.shared caught.pCur } :=
      ⟨fun x => advance_mem, placed'.ins, placed'.del⟩
    obtain ⟨kept, le'⟩ := seekToExistAll_remaining (d := d) moved
    simp only [lead] at kept le' ⊢
    refine ⟨kept, fun shown => lt_of_le_of_lt le' (lt_of_lt_of_le ?_ le)⟩
    cases position : caught.pCur with
    | none => simp [BtCursor.current, lead, position] at shown
    | some y =>
      unfold BtCursor.remaining
      rw [position]
      exact Nat.add_lt_add_right (ahead_step_lt (placed'.shared y position)) _
  | useTrans =>
    have moved : Placed ov { caught with pCurIns := advance d ov.ins caught.pCurIns } :=
      ⟨placed'.shared, fun x => advance_mem, placed'.del⟩
    obtain ⟨kept, le'⟩ := seekToExistAll_remaining (d := d) moved
    simp only [lead] at kept le' ⊢
    refine ⟨kept, fun shown => lt_of_le_of_lt le' (lt_of_lt_of_le ?_ le)⟩
    cases position : caught.pCurIns with
    | none => simp [BtCursor.current, lead, position] at shown
    | some y =>
      unfold BtCursor.remaining
      rw [position]
      exact Nat.add_lt_add_left (ahead_step_lt (placed'.ins y position)) _

/-- Stepping to the end takes no more fuel than there are entries in front. -/
theorem visits_ends (fuel : Nat) : ∀ {c : BtCursor α}, Placed ov c → c.remaining ov d < fuel →
    ∃ out, visits ov d fuel c = some out := by
  induction fuel with
  | zero => intro c _ enough; omega
  | succ fuel ih =>
    intro c placed enough
    rw [visits]
    cases shown : c.current with
    | none => exact ⟨[], rfl⟩
    | some visit =>
      obtain ⟨placed', less⟩ := advanceAll_remaining (d := d) placed
      have less := less (by simp [shown])
      generalize sqlite3BtreeAdvanceAll ov d c = result at placed' less
      obtain ⟨c', rc⟩ := result
      obtain ⟨out, visited⟩ := ih placed' (by omega)
      cases rc with
      | ok => exact ⟨visit :: out, by simp only [visited, Option.map_some]⟩
      | _ => exact ⟨[visit], rfl⟩

/-- Every scan ends. -/
theorem scanFrom_ends (placed : Placed ov c) : ∃ out, scanFrom ov d off c = some out := by
  unfold scanFrom
  cases off with
  | false => exact visits_ends _ placed remaining_lt
  | true =>
    obtain ⟨placed', -⟩ := advanceAll_remaining (d := d) placed
    simp only [if_true]
    generalize sqlite3BtreeAdvanceAll ov d c = result at placed'
    obtain ⟨c', rc⟩ := result
    cases rc with
    | ok => exact visits_ends _ placed' remaining_lt
    | _ => exact ⟨[], rfl⟩

end Ends

section Forwards

variable {t : Finset α} {bound : α}

/-- A cursor that has caught up with a bound is not before it. -/
theorem not_lt_of_advanceWhile {cursor : Option α}
    (moved : advanceWhile d t (d.lt · bound) (t.card + 1) cursor = some x) : ¬ d.lt x bound := by
  cases cursor with
  | none => cases moved
  | some y =>
    by_cases behind : d.lt y bound
    · rw [advanceWhile_lt behind _ (Nat.lt_succ_of_le (Finset.card_filter_le _ _))] at moved
      exact (Finset.mem_filter.1 (first_eq_some_iff.1 moved).1).2
    · rw [advanceWhile_of_not_lt behind] at moved
      cases moved
      exact behind

/-- Skipping deleted entries does not go before a bound that the position was not before. -/
theorem not_lt_of_seekToExistLoop {shared del : Finset α} (fuel : Nat) :
    ∀ {pCur pCurDel : Option α}, (∀ y, pCur = some y → ¬ d.lt y bound) →
      ∀ x, (seekToExistLoop d shared del fuel pCur pCurDel).1 = some x → ¬ d.lt x bound := by
  induction fuel with
  | zero => exact fun notBefore => notBefore
  | succ fuel ih =>
    intro pCur pCurDel notBefore
    cases pCur with
    | none => exact notBefore
    | some y =>
      cases pCurDel with
      | none => exact notBefore
      | some z =>
        rw [seekToExistLoop]
        split_ifs
        · exact ih notBefore
        · refine ih fun x moved before => notBefore y rfl ?_
          exact Dir.trans (step_eq_some_iff.1 moved).1.2 before
        · exact notBefore

/-- A scan never shows an entry before the one it showed last. -/
theorem advanceAll_not_lt {visit next : Visit α} (shown : c.current = some visit)
    (then_ : (sqlite3BtreeAdvanceAll ov d c).1.current = some next) :
    ¬ d.lt next.key visit.key := by
  have settled : ∀ c : BtCursor α, (∀ y, c.pCur = some y → ¬ d.lt y visit.key) →
      (∀ y, c.pCurIns = some y → ¬ d.lt y visit.key) →
      (btreeSeekToExistAll ov d c).1.current = some next → ¬ d.lt next.key visit.key := by
    intro c notBefore notBeforeIns found
    have skipped : ∀ y, (btreeSeekToExist ov d c).pCur = some y → ¬ d.lt y visit.key :=
      not_lt_of_seekToExistLoop (ov.shared.card + ov.del.card + 1) notBefore
    have ins : ∀ y, (btreeSeekToExist ov d c).pCurIns = some y → ¬ d.lt y visit.key :=
      notBeforeIns
    have led : ∀ state, BtCursor.current { btreeSeekToExist ov d c with state := state } =
        some next → ¬ d.lt next.key visit.key := by
      intro state current
      cases state with
      | useShared =>
        obtain ⟨y, there, rfl⟩ := map_eq_some_iff.1 current
        exact skipped y there
      | useTrans =>
        obtain ⟨y, there, rfl⟩ := map_eq_some_iff.1 current
        exact ins y there
    unfold btreeSeekToExistAll at found
    dsimp only at found
    cases choice : leader d (btreeSeekToExist ov d c).pCur (btreeSeekToExist ov d c).pCurIns with
    | none =>
      rw [choice] at found
      exact led (btreeSeekToExist ov d c).state found
    | some use =>
      rw [choice] at found
      exact led use found
  obtain ⟨pCur, pCurIns, pCurDel, state⟩ := c
  cases state with
  | useShared =>
    obtain ⟨key, rfl, rfl⟩ := map_eq_some_iff.1 shown
    refine settled ⟨step d ov.shared key, _, pCurDel, .useShared⟩ ?_ ?_ then_
    · exact fun y moved => Dir.asymm (step_eq_some_iff.1 moved).1.2
    · exact fun y moved => not_lt_of_advanceWhile moved
  | useTrans =>
    obtain ⟨key, rfl, rfl⟩ := map_eq_some_iff.1 shown
    refine settled ⟨_, step d ov.ins key, pCurDel, .useTrans⟩ ?_ ?_ then_
    · exact fun y moved => not_lt_of_advanceWhile moved
    · exact fun y moved => Dir.asymm (step_eq_some_iff.1 moved).1.2

/-- The first entry a scan shows is the one it stands on. -/
theorem visits_head (visited : visits ov d fuel c = some out) (shown : c.current = some visit) :
    ∃ rest, out = visit :: rest := by
  cases fuel with
  | zero => cases visited
  | succ fuel =>
    rw [visits, shown] at visited
    dsimp only at visited
    split at visited
    · obtain ⟨rest, -, rfl⟩ := map_eq_some_iff.1 visited
      exact ⟨rest, rfl⟩
    · exact ⟨[], (Option.some.inj visited).symm⟩

end Forwards

section Block

variable {M Q : α → Prop} [DecidablePred M] {out : List (Visit α)}

/-- The part of a scan's output up to the first entry outside the block. -/
def block (M : α → Prop) [DecidablePred M] (out : List (Visit α)) : List (Visit α) :=
  out.takeWhile fun visit => M visit.key

/-- A scan that stops at the first entry outside the block `M` shows exactly the entries of the
view in it, in order. -/
def BlockShows (ov : Overlay α) (d : Dir) (off : Bool) (c : BtCursor α) (M : α → Prop)
    [DecidablePred M] : Prop :=
  ∃ out, scanFrom ov d off c = some out ∧ Lists ov d M (block M out)

/-- Stopping at the end of the block cuts off nothing of it, if what was listed starts in it. -/
theorem mem_block_iff (sorted : out.Pairwise fun a b => d.lt a.key b.key)
    (initial : ∀ a ∈ out, ∀ b ∈ out, M b.key → d.lt a.key b.key → M a.key) (visit : Visit α) :
    visit ∈ block M out ↔ visit ∈ out ∧ M visit.key := by
  unfold block
  induction out with
  | nil => simp
  | cons first rest ih =>
    obtain ⟨before, sortedRest⟩ := List.pairwise_cons.1 sorted
    have rest' := ih sortedRest fun a inA b inB =>
      initial a (List.mem_cons_of_mem _ inA) b (List.mem_cons_of_mem _ inB)
    by_cases inside : M first.key
    · simp only [List.takeWhile_cons, inside, decide_true, if_true, List.mem_cons, rest']
      constructor
      · rintro (rfl | ⟨member, holds⟩)
        · exact ⟨.inl rfl, inside⟩
        · exact ⟨.inr member, holds⟩
      · rintro ⟨rfl | member, holds⟩
        · exact .inl rfl
        · exact .inr ⟨member, holds⟩
    · simp only [List.takeWhile_cons, inside, decide_false, Bool.false_eq_true, if_false,
        List.not_mem_nil, List.mem_cons, false_iff]
      rintro ⟨rfl | member, holds⟩
      · exact inside holds
      · exact inside (initial first List.mem_cons_self visit (List.mem_cons_of_mem _ member) holds
          (before visit member))

/-- A scan that would show the entries with `Q`, which start in the block, shows the block just
when all of it satisfies `Q`. -/
theorem ScanShows.block_iff (shows : ScanShows ov d off c Q)
    (initial : ∀ x y, Q x → M y → d.lt x y → M x) :
    BlockShows ov d off c M ↔ ∀ x, x ∈ ov.live ∨ x ∈ ov.ins → M x → Q x := by
  obtain ⟨out, scanned, lists⟩ := shows
  have cut : Lists ov d (fun x => Q x ∧ M x) (block M out) := by
    refine ⟨lists.1.sublist (List.takeWhile_sublist _), fun visit => ?_⟩
    rw [mem_block_iff lists.1, lists.2, and_assoc]
    intro a inA b _ inside before
    exact initial a.key b.key ((lists.2 a).1 inA).2 inside before
  constructor
  · rintro ⟨out', scanned', lists'⟩ x inView inside
    rw [scanned] at scanned'
    cases scanned'
    exact ((cut.agree lists' x inView).2 inside).1
  · intro all
    refine ⟨out, scanned, cut.congr fun x inView => ?_⟩
    exact ⟨fun both => both.2, fun inside => ⟨all x inView inside, inside⟩⟩

/-- A scan of the view shows nothing of a block the view has nothing of. -/
theorem ScanShows.block_of_none (shows : ScanShows ov d off c Q)
    (none : ∀ x, x ∈ ov.live ∨ x ∈ ov.ins → ¬ M x) : BlockShows ov d off c M := by
  obtain ⟨out, scanned, lists⟩ := shows
  refine ⟨out, scanned, ?_⟩
  have empty : block M out = [] := by
    rw [List.eq_nil_iff_forall_not_mem]
    intro visit member
    have inside : M visit.key := by
      have holds := List.mem_takeWhile_imp member
      exact of_decide_eq_true holds
    have shown := ((lists.2 visit).1 (List.takeWhile_subset _ member)).1
    exact none visit.key shown.mem inside
  rw [empty]
  exact lists_nil none

/-- A scan that starts with an entry of the block after another one is wrong. -/
theorem not_block_of_lost {v : Visit α} (shown : c.current = some v) (inside : M v.key)
    (inView : x ∈ ov.live ∨ x ∈ ov.ins) (wanted : M x) (lost : d.lt x v.key) :
    ¬ BlockShows ov d false c M := by
  rintro ⟨out, scanned, lists⟩
  obtain ⟨rest, rfl⟩ := visits_head scanned shown
  unfold block at lists
  rw [List.takeWhile_cons, if_pos (decide_eq_true inside)] at lists
  exact not_lists_of_lost inView wanted lost lists

section

variable (convex : ∀ a b, M a → ¬ d.lt b a → ¬ d.lt x b → M b)

include convex

/-- From inside a convex block, an unnoticed entry of the block is shown in it. -/
theorem Meets.visits_block (fuel : Nat) :
    ∀ {c : BtCursor α} {visit : Visit α} {out : List (Visit α)}, Meets ov d c x →
      c.current = some visit → M visit.key → Scan.visits ov d fuel c = some out →
      ⟨.useShared, x⟩ ∈ block M out := by
  induction fuel with
  | zero => intro c visit out _ _ _ visited; cases visited
  | succ fuel ih =>
    intro c visit out meets shown inside visited
    rw [Scan.visits, shown] at visited
    unfold block
    by_cases here : visit = ⟨.useShared, x⟩
    · have again : Scan.visits ov d (fuel + 1) c = some out := by
        rw [Scan.visits, shown]
        exact visited
      obtain ⟨rest, rfl⟩ := visits_head again shown
      rw [List.takeWhile_cons, if_pos (decide_eq_true inside), ← here]
      exact List.mem_cons_self
    · have elsewhere : c.current ≠ some ⟨.useShared, x⟩ := by
        rw [shown]
        exact fun same => here (Option.some.inj same)
      obtain ⟨ok, meets'⟩ := meets.advance elsewhere
      obtain ⟨next, shown', notPast⟩ := meets'.shows
      have notBefore := advanceAll_not_lt shown shown'
      generalize sqlite3BtreeAdvanceAll ov d c = result at ok meets' shown' visited
      obtain ⟨c', rc⟩ := result
      obtain rfl : rc = .ok := ok
      obtain ⟨rest, visited', rfl⟩ := map_eq_some_iff.1 visited
      rw [List.takeWhile_cons, if_pos (decide_eq_true inside)]
      exact List.mem_cons_of_mem _
        (ih meets' shown' (convex visit.key next.key inside notBefore notPast) visited')

/-- Meeting an entry that is not live, and not after the block, spoils the scan of a block the
view has something of: either the entry is shown or the scan stops before the block. -/
theorem Meets.not_visits_block (meets : Meets ov d c x) (stray : x ∉ ov.live)
    (wanted : ∃ y, (y ∈ ov.live ∨ y ∈ ov.ins) ∧ M y) :
    ¬ ∃ out, Scan.visits ov d fuel c = some out ∧ Lists ov d M (block M out) := by
  rintro ⟨out, visited, lists⟩
  obtain ⟨visit, shown, -⟩ := meets.shows
  by_cases inside : M visit.key
  · have met := meets.visits_block convex fuel shown inside visited
    exact not_lists_of_stray met stray lists
  · obtain ⟨rest, rfl⟩ := visits_head visited shown
    have cut : block M (visit :: rest) = [] := by
      simp only [block, List.takeWhile_cons, inside, decide_false, Bool.false_eq_true, if_false]
    obtain ⟨y, inView, inside'⟩ := wanted
    obtain ⟨use, shown'⟩ := Overlay.shows_iff.2 inView
    have member := (lists.2 ⟨use, y⟩).2 ⟨shown', inside'⟩
    rw [cut] at member
    exact absurd member List.not_mem_nil

/-- The same for a scan, which may step off its first position. -/
theorem Meets.not_block (meets : Meets ov d c x)
    (elsewhere : off = true → c.current ≠ some ⟨.useShared, x⟩) (stray : x ∉ ov.live)
    (wanted : ∃ y, (y ∈ ov.live ∨ y ∈ ov.ins) ∧ M y) : ¬ BlockShows ov d off c M := by
  unfold BlockShows scanFrom
  cases off with
  | false => exact meets.not_visits_block convex stray wanted
  | true =>
    obtain ⟨ok, meets'⟩ := meets.advance (elsewhere rfl)
    simp only [if_true]
    generalize sqlite3BtreeAdvanceAll ov d c = result at ok meets'
    obtain ⟨c', rc⟩ := result
    obtain rfl : rc = .ok := ok
    exact meets'.not_visits_block convex stray wanted

end

/-- What a scan shows first decides whether it shows anything of the block. -/
theorem block_eq_nil (visited : visits ov d fuel c = some out) (shown : c.current = some visit)
    (outside : ¬ M visit.key) : block M out = [] := by
  obtain ⟨rest, rfl⟩ := visits_head visited shown
  simp only [block, List.takeWhile_cons, outside, decide_false, Bool.false_eq_true, if_false]

/-- A scan that steps off and then meets an entry before the block shows nothing of it. -/
theorem Meets.block_nothing (meets : Meets ov d c x) (placed : Placed ov c)
    (elsewhere : c.current ≠ some ⟨.useShared, x⟩) (before : ∀ y, ¬ d.lt x y → ¬ M y)
    (none : ∀ x, x ∈ ov.live ∨ x ∈ ov.ins → ¬ M x) : BlockShows ov d true c M := by
  obtain ⟨ok, meets'⟩ := meets.advance elsewhere
  obtain ⟨out, scanned⟩ : ∃ out, scanFrom ov d true c = some out := scanFrom_ends placed
  refine ⟨out, scanned, ?_⟩
  simp only [scanFrom, if_true] at scanned
  generalize sqlite3BtreeAdvanceAll ov d c = result at ok meets' scanned
  obtain ⟨c', rc⟩ := result
  obtain rfl : rc = .ok := ok
  obtain ⟨visit, shown, order⟩ := meets'.shows
  rw [block_eq_nil scanned shown (before visit.key order)]
  exact lists_nil none

end Block

section Twins

variable {ov' : Overlay α} {U : α → Prop} [DecidablePred U] {c' : BtCursor α}

/-- Two cursors without a deletion cursor that stand on the same entries as far as these satisfy
`U`. -/
structure Twin (U : α → Prop) (c c' : BtCursor α) : Prop where
  shared : ∀ x, U x → (c.pCur = some x ↔ c'.pCur = some x)
  ins : c.pCurIns = c'.pCurIns
  noDel : c.pCurDel = none
  noDel' : c'.pCurDel = none
  state : c.state = c'.state

/-- The scan has ended or left `U`. -/
def Over (U : α → Prop) (result : BtCursor α × Rc) : Prop :=
  result.2 = .done ∨ (result.2 = .ok ∧ ∃ visit, result.1.current = some visit ∧ ¬ U visit.key)

omit [DecidablePred U] in
/-- Trees that agree in an initial part have the same first entry there. -/
theorem first_agree {t t' : Finset α} (down : ∀ x y, U y → d.lt x y → U x)
    (agree : ∀ x, U x → (x ∈ t ↔ x ∈ t')) (inside : U x) :
    first d t = some x ↔ first d t' = some x := by
  simp only [first_eq_some_iff]
  rw [agree x inside]
  refine and_congr_right fun _ => ⟨fun least y member before => ?_, fun least y member before => ?_⟩
  · exact least y ((agree y (down y x inside before)).2 member) before
  · exact least y ((agree y (down y x inside before)).1 member) before

omit [LinearOrder α] [DecidablePred U] in
/-- Twins show the same entry as long as it satisfies `U`. -/
theorem Twin.current (twin : Twin U c c') (shown : c.current = some visit) (inside : U visit.key) :
    c'.current = some visit := by
  obtain ⟨pCur, pCurIns, pCurDel, state⟩ := c
  obtain ⟨pCur', pCurIns', pCurDel', state'⟩ := c'
  obtain rfl : state = state' := twin.state
  obtain rfl : pCurIns = pCurIns' := twin.ins
  cases state with
  | useShared =>
    obtain ⟨key, rfl, rfl⟩ := map_eq_some_iff.1 shown
    have there : pCur' = some key := (twin.shared key inside).1 rfl
    rw [there]
    rfl
  | useTrans => exact shown

/-- Without a deletion cursor the leading cursor is chosen from where the positions are. -/
theorem seekToExistAll_noDel (noDel : c.pCurDel = none) :
    btreeSeekToExistAll ov d c = settle d c := by
  have skipped : btreeSeekToExist ov d c = c := by
    obtain ⟨pCur, pCurIns, _, state⟩ := c
    obtain rfl := noDel
    cases pCur <;> rfl
  change settle d (btreeSeekToExist ov d c) = settle d c
  rw [skipped]

/-- An advance of a leading shared cursor without a deletion cursor. -/
theorem advanceAll_shared_noDel {key : α} {pCurIns : Option α} :
    sqlite3BtreeAdvanceAll ov d ⟨some key, pCurIns, none, .useShared⟩ =
      settle d ⟨step d ov.shared key,
        advanceWhile d ov.ins (d.lt · key) (ov.ins.card + 1) pCurIns, none, .useShared⟩ :=
  seekToExistAll_noDel rfl

/-- An advance of a leading insertion cursor without a deletion cursor. -/
theorem advanceAll_trans_noDel {key : α} {pCur : Option α} :
    sqlite3BtreeAdvanceAll ov d ⟨pCur, some key, none, .useTrans⟩ =
      settle d ⟨advanceWhile d ov.shared (d.lt · key) (ov.shared.card + 1) pCur,
        step d ov.ins key, none, .useTrans⟩ :=
  seekToExistAll_noDel rfl

/-- Settled positions are led by the cursor chosen. -/
theorem settle_eq {use : CursorUse} (led : leader d c.pCur c.pCurIns = some use) :
    settle d c = ({ c with state := use }, .ok) := by
  simp only [settle, led]

omit [DecidablePred U] in
/-- Choosing the leading cursor keeps twins, unless both leave `U`. -/
theorem Twin.settle (down : ∀ x y, U y → d.lt x y → U x) (twin : Twin U c c') :
    (Over U (Scan.settle d c) ∧ Over U (Scan.settle d c')) ∨
      ((Scan.settle d c).2 = .ok ∧ (Scan.settle d c').2 = .ok ∧
        Twin U (Scan.settle d c).1 (Scan.settle d c').1 ∧
        ∃ visit, (Scan.settle d c).1.current = some visit ∧ U visit.key) := by
  obtain ⟨pCur, pCurIns, pCurDel, state⟩ := c
  obtain ⟨pCur', pCurIns', pCurDel', state'⟩ := c'
  obtain rfl : pCurIns = pCurIns' := twin.ins
  obtain rfl : pCurDel = none := twin.noDel
  obtain rfl : pCurDel' = none := twin.noDel'
  have outside : ∀ {p : Option α}, (∀ x, U x → p ≠ some x) →
      (∀ i, pCurIns = some i → U i → leader d p pCurIns = some .useTrans) ∧
        ((∀ i, pCurIns = some i → ¬ U i) →
          ∀ state, Over U (Scan.settle d ⟨p, pCurIns, none, state⟩)) := by
    intro p gone
    constructor
    · rintro i rfl inside
      rcases leader_cases d p (some i) with ⟨-, -, ⟨⟩⟩ | ⟨y, -, rfl, first⟩ | ⟨_, led, -⟩
      · rcases Dir.not_lt_iff.1 (first i rfl) with rfl | before
        · exact absurd rfl (gone _ inside)
        · exact absurd rfl (gone y (down y i inside before))
      · exact led
    · intro goneIns state
      rcases leader_cases d p pCurIns with ⟨led, -⟩ | ⟨y, led, rfl, -⟩ | ⟨i, led, rfl, -⟩
      · simp only [Over, Scan.settle, led, true_or]
      · rw [settle_eq led]
        exact .inr ⟨rfl, ⟨.useShared, y⟩, rfl, fun inside => gone y inside rfl⟩
      · rw [settle_eq led]
        exact .inr ⟨rfl, ⟨.useTrans, i⟩, rfl, goneIns i rfl⟩
  by_cases shared : ∃ y, pCur = some y ∧ U y
  · obtain ⟨y, rfl, inside⟩ := shared
    obtain rfl : pCur' = some y := (twin.shared y inside).1 rfl
    have led : ∃ use, leader d (some y) pCurIns = some use ∧
        ∃ visit, BtCursor.current ⟨some y, pCurIns, none, use⟩ = some visit ∧ U visit.key := by
      rcases leader_cases d (some y) pCurIns with ⟨-, ⟨⟩, -⟩ | ⟨_, led, -⟩ | ⟨i, led, rfl, first⟩
      · exact ⟨.useShared, led, ⟨.useShared, y⟩, rfl, inside⟩
      · exact ⟨.useTrans, led, ⟨.useTrans, i⟩, rfl, down i y inside (first y rfl)⟩
    obtain ⟨use, led, visit, shown, insideVisit⟩ := led
    rw [settle_eq led, settle_eq led]
    exact .inr ⟨rfl, rfl, ⟨twin.shared, rfl, rfl, rfl, rfl⟩, visit, shown, insideVisit⟩
  · have gone : ∀ x, U x → pCur ≠ some x := fun x inside there => shared ⟨x, there, inside⟩
    have gone' : ∀ x, U x → pCur' ≠ some x := fun x inside there =>
      gone x inside ((twin.shared x inside).2 there)
    by_cases ins : ∃ i, pCurIns = some i ∧ U i
    · obtain ⟨i, rfl, inside⟩ := ins
      rw [settle_eq ((outside gone).1 i rfl inside), settle_eq ((outside gone').1 i rfl inside)]
      exact .inr ⟨rfl, rfl, ⟨twin.shared, rfl, rfl, rfl, rfl⟩, ⟨.useTrans, i⟩, rfl, inside⟩
    · have goneIns : ∀ i, pCurIns = some i → ¬ U i := fun i there inside => ins ⟨i, there, inside⟩
      exact .inl ⟨(outside gone).2 goneIns _, (outside gone').2 goneIns _⟩

/-- A scan that has ended or left `U` shows nothing of it. -/
theorem block_over {result : BtCursor α × Rc}
    (visited : (match result with | (c, .ok) => visits ov d fuel c | _ => some []) = some out)
    (ended : Over U result) : block U out = [] := by
  obtain ⟨c', rc⟩ := result
  rcases ended with done | ⟨ok, next, shown, outside⟩
  · obtain rfl : rc = .done := done
    cases visited
    rfl
  · obtain rfl : rc = .ok := ok
    obtain ⟨rest, rfl⟩ := visits_head visited shown
    simp [block, outside]

/-- The rest of what a scan shows after an entry. -/
theorem visits_succ (visited : visits ov d (fuel + 1) c = some out) (shown : c.current = some visit) :
    ∃ rest, out = visit :: rest ∧
      (match sqlite3BtreeAdvanceAll ov d c with
      | (c, .ok) => visits ov d fuel c
      | _ => some []) = some rest := by
  rw [visits, shown] at visited
  generalize sqlite3BtreeAdvanceAll ov d c = result at visited
  obtain ⟨c', rc⟩ := result
  cases rc with
  | ok =>
    obtain ⟨rest, visited', rfl⟩ := map_eq_some_iff.1 visited
    exact ⟨rest, rfl, visited'⟩
  | _ => exact ⟨[], (Option.some.inj visited).symm, rfl⟩

/-- The trees agree in `U`, an initial part of the order. -/
structure SameUntil (d : Dir) (U : α → Prop) (ov ov' : Overlay α) : Prop where
  /-- What comes before an entry of `U` is in `U`. -/
  down : ∀ x y, U y → d.lt x y → U x
  shared : ∀ x, U x → (x ∈ ov.shared ↔ x ∈ ov'.shared)
  ins : ov.ins = ov'.ins

omit [DecidablePred U] in
/-- The first shared entry with a property is the same one in `U`. -/
theorem SameUntil.filter (same : SameUntil d U ov ov') (p : α → Prop) [DecidablePred p]
    (inside : U x) :
    first d (ov.shared.filter p) = some x ↔ first d (ov'.shared.filter p) = some x :=
  first_agree same.down (fun y insideY => by
    simp only [Finset.mem_filter, same.shared y insideY]) inside

omit [DecidablePred U] in
/-- Advancing keeps twins, unless both leave `U`. -/
theorem Twin.advance (same : SameUntil d U ov ov') (twin : Twin U c c')
    (shown : c.current = some visit) (inside : U visit.key) :
    let result := sqlite3BtreeAdvanceAll ov d c
    let result' := sqlite3BtreeAdvanceAll ov' d c'
    (Over U result ∧ Over U result') ∨
      (result.2 = .ok ∧ result'.2 = .ok ∧ Twin U result.1 result'.1 ∧
        ∃ next, result.1.current = some next ∧ U next.key) := by
  obtain ⟨pCur, pCurIns, pCurDel, state⟩ := c
  obtain ⟨pCur', pCurIns', pCurDel', state'⟩ := c'
  obtain rfl : state = state' := twin.state
  obtain rfl : pCurIns = pCurIns' := twin.ins
  obtain rfl : pCurDel = none := twin.noDel
  obtain rfl : pCurDel' = none := twin.noDel'
  cases state with
  | useShared =>
    obtain ⟨key, rfl, rfl⟩ := map_eq_some_iff.1 shown
    obtain rfl : pCur' = some key := (twin.shared key inside).1 rfl
    rw [advanceAll_shared_noDel, advanceAll_shared_noDel]
    refine Twin.settle same.down ⟨fun x insideX => same.filter (d.lt key) insideX, ?_, rfl, rfl, rfl⟩
    rw [same.ins]
  | useTrans =>
    obtain ⟨key, rfl, rfl⟩ := map_eq_some_iff.1 shown
    rw [advanceAll_trans_noDel, advanceAll_trans_noDel]
    refine Twin.settle same.down ⟨fun x insideX => ?_, by rw [same.ins], rfl, rfl, rfl⟩
    -- Outside `U` a cursor has nothing to catch up with.
    have stays : ∀ {ov : Overlay α} {p : Option α}, (∀ y, p = some y → ¬ U y) →
        advanceWhile d ov.shared (d.lt · key) (ov.shared.card + 1) p = p := by
      intro ov p gone
      cases p with
      | none => rfl
      | some y =>
        exact advanceWhile_of_not_lt (fun before => gone y rfl (same.down y key inside before)) _
    by_cases within : ∃ y, pCur = some y ∧ U y
    · obtain ⟨y, rfl, insideY⟩ := within
      obtain rfl : pCur' = some y := (twin.shared y insideY).1 rfl
      by_cases behind : d.lt y key
      · rw [advanceWhile_lt behind _ (Nat.lt_succ_of_le (Finset.card_filter_le _ _)),
          advanceWhile_lt behind _ (Nat.lt_succ_of_le (Finset.card_filter_le _ _))]
        exact same.filter _ insideX
      · rw [advanceWhile_of_not_lt behind, advanceWhile_of_not_lt behind]
    · have gone : ∀ y, pCur = some y → ¬ U y := fun y there insideY => within ⟨y, there, insideY⟩
      have gone' : ∀ y, pCur' = some y → ¬ U y := fun y there insideY =>
        gone y ((twin.shared y insideY).2 there) insideY
      rw [stays gone, stays gone']
      exact twin.shared x insideX

variable (same : SameUntil d U ov ov')

include same

/-- Twins show the same entries of `U`. -/
theorem Twin.visits (fuel : Nat) :
    ∀ {fuel' : Nat} {c c' : BtCursor α} {visit : Visit α} {out out' : List (Visit α)},
      Twin U c c' → c.current = some visit → U visit.key →
      Scan.visits ov d fuel c = some out → Scan.visits ov' d fuel' c' = some out' →
      block U out = block U out' := by
  induction fuel with
  | zero => intro fuel' c c' visit out out' _ _ _ visited; cases visited
  | succ fuel ih =>
    intro fuel' c c' visit out out' twin shown inside visited visited'
    cases fuel' with
    | zero => cases visited'
    | succ fuel' =>
      obtain ⟨rest, rfl, after⟩ := visits_succ visited shown
      obtain ⟨rest', rfl, after'⟩ := visits_succ visited' (twin.current shown inside)
      have rests : block U rest = block U rest' := by
        rcases twin.advance same shown inside with
          ⟨ended, ended'⟩ | ⟨ok, ok', twin', next, shown', insideNext⟩
        · rw [block_over after ended, block_over after' ended']
        · generalize sqlite3BtreeAdvanceAll ov d c = result at ok twin' shown' after
          generalize sqlite3BtreeAdvanceAll ov' d c' = result' at ok' twin' after'
          obtain ⟨c₁, rc⟩ := result
          obtain ⟨c₁', rc'⟩ := result'
          obtain rfl : rc = .ok := ok
          obtain rfl : rc' = .ok := ok'
          exact ih twin' shown' insideNext after after'
      unfold block at rests ⊢
      rw [List.takeWhile_cons, List.takeWhile_cons, rests]

/-- Twins show the same of a block inside `U`. -/
theorem Twin.scan {M : α → Prop} [DecidablePred M]
    (twin : Twin U c c') (shown : c.current = some visit) (inside : U visit.key)
    (smaller : ∀ x, M x → U x) {out out' : List (Visit α)}
    (scanned : scanFrom ov d off c = some out) (scanned' : scanFrom ov' d off c' = some out') :
    block M out = block M out' := by
  have cut : ∀ list : List (Visit α), block M (block U list) = block M list := by
    intro list
    unfold block
    induction list with
    | nil => rfl
    | cons first rest ih =>
      by_cases insideM : M first.key
      · simp [insideM, smaller _ insideM, ih]
      · by_cases insideU : U first.key <;> simp [insideM, insideU]
  have agree : block U out = block U out' := by
    unfold scanFrom at scanned scanned'
    cases off with
    | false => exact twin.visits same _ shown inside scanned scanned'
    | true =>
      simp only [if_true] at scanned scanned'
      rcases twin.advance same shown inside with
        ⟨ended, ended'⟩ | ⟨ok, ok', twin', next, shown', insideNext⟩
      · rw [block_over scanned ended, block_over scanned' ended']
      · generalize sqlite3BtreeAdvanceAll ov d c = result at ok twin' shown' scanned
        generalize sqlite3BtreeAdvanceAll ov' d c' = result' at ok' twin' scanned'
        obtain ⟨c₁, rc⟩ := result
        obtain ⟨c₁', rc'⟩ := result'
        obtain rfl : rc = .ok := ok
        obtain rfl : rc' = .ok := ok'
        exact twin'.visits same _ shown' insideNext scanned scanned'
  rw [← cut, agree, cut]

/-- A block that the scan of another overlay with the same view shows is shown here. -/
theorem Twin.blockShows {M : α → Prop} [DecidablePred M]
    (live : ov.live = ov'.live) (twin : Twin U c c') (placed : Placed ov c) {v : Visit α}
    (shown : c.current = some v) (inside : U v.key) (smaller : ∀ x, M x → U x)
    (shows : BlockShows ov' d off c' M) : BlockShows ov d off c M := by
  obtain ⟨out', scanned', lists⟩ := shows
  obtain ⟨out, scanned⟩ : ∃ out, scanFrom ov d off c = some out := scanFrom_ends placed
  refine ⟨out, scanned, ?_⟩
  rw [twin.scan same shown inside smaller scanned scanned']
  have agree : ∀ visit, ov.Shows visit ↔ ov'.Shows visit := by
    rintro ⟨use, key⟩
    cases use with
    | useShared => simp only [Overlay.Shows, live]
    | useTrans => simp only [Overlay.Shows, same.ins]
  exact ⟨lists.1, fun visit => by rw [lists.2 visit, agree visit]⟩

end Twins

section Alone

/-- A scan with neither an insertion nor a deletion cursor steps through the shared tree. -/
theorem scanFrom_alone {l : α} : scanFrom ov d true ⟨some l, none, none, .useShared⟩ =
    match step d ov.shared l with
    | none => some []
    | some y => visits ov d (ov.shared.card + ov.ins.card + 1) ⟨some y, none, none, .useShared⟩ := by
  have idle : advanceWhile d ov.ins (d.lt · l) (ov.ins.card + 1) none = none := rfl
  simp only [scanFrom, if_true]
  rw [advanceAll_shared_noDel, idle]
  cases step d ov.shared l <;> rfl

end Alone

end SQLumDash.Scan
