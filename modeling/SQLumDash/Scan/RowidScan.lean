import SQLumDash.Scan.ScanFaults

/-!
# Range scans of a rowid table

What a range scan by rowid shows, by where the cursors stand when the leading one is chosen.
The cases are stated in the direction of the scan; which of them an opcode can reach, and
which of two cursors on the same side of the key leads, differs between the directions.
-/

namespace SQLumDash.Scan

open OrderedCursor
open Dir (asymm lt_of_lt_of_not_lt irrefl)
open Probe (exact_sharp exact_behind exact_eq exact_ahead)

variable {α : Type*} [LinearOrder α]

/-- The keys a range scan by rowid asks for. -/
def Opcode.inRange (opcode : Opcode) (k x : α) : Prop :=
  match opcode with
  | .seekGE => k ≤ x
  | .seekGT => k < x
  | .seekLE => x ≤ k
  | .seekLT => x < k
  | _ => False

namespace Opcode

variable {opcode : Opcode} {k x : α} (seeks : opcode.Seeks)

include seeks

/-- The scan starts on an entry past the key. -/
theorem stepsOff_ahead : opcode.stepsOff opcode.dir.sign = false := by
  cases opcode <;> simp [Seeks, seeksUp, seeksDown, stepsOff, dir, Dir.sign] at seeks ⊢

/-- It steps off an entry before the key. -/
theorem stepsOff_behind : opcode.stepsOff (-opcode.dir.sign) = true := by
  cases opcode <;> simp [Seeks, seeksUp, seeksDown, stepsOff, dir, Dir.sign] at seeks ⊢

/-- Apart from the key itself the range is what lies ahead of it. -/
theorem inRange_iff (apart : x ≠ k) :
    opcode.inRange k x ↔ opcode.dir.lt k x := by
  cases opcode <;> simp [Seeks, seeksUp, seeksDown, inRange, dir, Dir.lt] at seeks ⊢
  · exact ⟨fun le => lt_of_le_of_ne le apart, le_of_lt⟩
  · exact ⟨fun le => lt_of_le_of_ne le apart.symm, le_of_lt⟩

/-- The key itself is in the range unless the scan steps off it. -/
theorem inRange_self : opcode.inRange k k ↔ opcode.stepsOff 0 = false := by
  cases opcode <;>
    simp [Seeks, seeksUp, seeksDown, inRange, stepsOff] at seeks ⊢

end Opcode

section Shown

variable {ov : Overlay α} {opcode : Opcode} {c : BtCursor α} {k a : α}

/-- From the key on, a scan shows the range. -/
theorem At.shows_range (seeks : opcode.Seeks) (at_ : At ov opcode.dir c k) :
    ScanShows ov opcode.dir (opcode.stepsOff 0) c (opcode.inRange k) := by
  have self := Opcode.inRange_self (k := k) seeks
  cases off : opcode.stepsOff 0 with
  | false =>
    refine at_.scan.congr fun x _ => ?_
    rw [Dir.not_lt_iff]
    by_cases same : x = k
    · subst same
      simp [self, off]
    · simp [Opcode.inRange_iff seeks same, same]
  | true =>
    refine at_.scan_off.congr fun x _ => ?_
    by_cases same : x = k
    · subst same
      simp [self, off]
    · rw [Opcode.inRange_iff seeks same]

variable (absent : ∀ x, x ∈ ov.live ∨ x ∈ ov.ins → x ≠ k)
include absent

/-- A scan that starts on an entry past the key is right if that is the first one. -/
theorem At.shows_ahead_iff (seeks : opcode.Seeks) (at_ : At ov opcode.dir c a) :
    ScanShows ov opcode.dir (opcode.stepsOff opcode.dir.sign) c (opcode.inRange k) ↔
      ∀ x, x ∈ ov.live ∨ x ∈ ov.ins → (¬ opcode.dir.lt x a ↔ opcode.dir.lt k x) := by
  rw [Opcode.stepsOff_ahead seeks, at_.scan.iff]
  exact forall₂_congr fun x inView => by rw [Opcode.inRange_iff seeks (absent x inView)]

/-- A scan that steps to the entries with `Q` is right if those are the ones past the key. -/
theorem Advances.shows_behind_iff (seeks : opcode.Seeks) {Q : α → Prop} [DecidablePred Q]
    (advances : Advances ov opcode.dir Q c) (upward : ∀ x y, Q x → opcode.dir.lt x y → Q y) :
    ScanShows ov opcode.dir (opcode.stepsOff (-opcode.dir.sign)) c (opcode.inRange k) ↔
      ∀ x, x ∈ ov.live ∨ x ∈ ov.ins → (Q x ↔ opcode.dir.lt k x) := by
  rw [Opcode.stepsOff_behind seeks, (advances.scan upward).iff]
  exact forall₂_congr fun x inView => by rw [Opcode.inRange_iff seeks (absent x inView)]

/-- A scan that steps off an entry is right if what comes after it is what lies past the key. -/
theorem At.shows_behind_iff (seeks : opcode.Seeks) (at_ : At ov opcode.dir c a) :
    ScanShows ov opcode.dir (opcode.stepsOff (-opcode.dir.sign)) c (opcode.inRange k) ↔
      ∀ x, x ∈ ov.live ∨ x ∈ ov.ins → (opcode.dir.lt a x ↔ opcode.dir.lt k x) :=
  at_.advances.shows_behind_iff absent seeks fun _ _ => Dir.trans

end Shown

section Pairs

variable {ov : Overlay α} {d : Dir} {pCurDel : Option α} {a i : α}

section

variable (live : a ∈ ov.live) (inserted : i ∈ ov.ins)
  (placedDel : ∀ x, pCurDel = some x → x ∈ ov.del) (ready : DelReady ov d (some a) pCurDel)

include live inserted placedDel ready

/-- The cursor that comes last leads: nothing to come is passed. -/
theorem at_last : At ov d ⟨some a, some i, pCurDel, if d.lt a i then .useTrans else .useShared⟩
      (if d.lt a i then i else a) := by
  by_cases before : d.lt a i
  · simp only [before, if_true]
    refine at_ins inserted ?_ placedDel ?_ ready
    · rintro y ⟨⟩
      exact live
    · exact fun x _ later => ⟨a, rfl, asymm (Dir.trans before later)⟩
  · simp only [before, if_false]
    refine at_live live ?_ placedDel ?_ ready
    · rintro y ⟨⟩
      exact inserted
    · intro x _ later
      exact ⟨i, rfl, fun past => before (Dir.trans later past)⟩

/-- The cursor that comes first leads, both being the first past the key. -/
theorem at_first {probe : Probe α} (ahead : probe.Ahead d a) (aheadIns : probe.Ahead d i)
    (nearest : ∀ x ∈ ov.live, ¬ probe.Behind d x → ¬ d.lt x a)
    (nearestIns : ∀ x ∈ ov.ins, ¬ probe.Behind d x → ¬ d.lt x i) :
    At ov d ⟨some a, some i, pCurDel, if d.lt a i then .useShared else .useTrans⟩
      (if d.lt a i then a else i) := by
  have after : ∀ {x y}, probe.Ahead d y → d.lt y x → ¬ probe.Behind d x :=
    fun ahead later behind => behind.not_ahead (ahead.of_not_lt (asymm later))
  by_cases before : d.lt a i
  · simp only [before, if_true]
    refine at_live live ?_ placedDel ?_ ready
    · rintro y ⟨⟩
      exact inserted
    · exact fun x inside later => ⟨i, rfl, nearestIns x inside (after ahead later)⟩
  · simp only [before, if_false]
    refine at_ins inserted ?_ placedDel ?_ ready
    · rintro y ⟨⟩
      exact live
    · exact fun x inside later => ⟨a, rfl, nearest x inside (after aheadIns later)⟩

/-- The cursor that comes first leads, both being the last before the key: the next entry is that
of the other one. -/
theorem leads_first {probe : Probe α} (nearest : ∀ x ∈ ov.live, d.lt a x → probe.Ahead d x)
    (nearestIns : ∀ x ∈ ov.ins, d.lt i x → probe.Ahead d x) (behind : probe.Behind d a)
    (behindIns : probe.Behind d i) : Leads ov d (fun x => ¬ d.lt x (if d.lt a i then i else a))
      ⟨some a, some i, pCurDel, if d.lt a i then .useShared else .useTrans⟩
      (if d.lt a i then a else i) := by
  have kept : ov.deleteAll = true → some a = none := fun flag =>
    absurd flag (Overlay.not_deleteAll live)
  have placed : ∀ state, Placed ov ⟨some a, some i, pCurDel, state⟩ := by
    refine fun state => ⟨?_, ?_, placedDel⟩
    · rintro y ⟨⟩
      exact Overlay.live_subset live
    · rintro y ⟨⟩
      exact inserted
  have notPastDel : ∀ y, some a = some y → ∀ x ∈ ov.del, ¬ d.lt x y → NotPast d pCurDel x := by
    rintro y ⟨⟩ x deleted notBefore
    exact ready a rfl x deleted (Dir.lt_of_not_lt_of_ne notBefore (Overlay.ne_of_del deleted live))
  -- Past the key an entry comes after both cursors.
  have afterBoth : ∀ {x}, probe.Ahead d x → d.lt a x ∧ d.lt i x := fun ahead =>
    ⟨behind.lt fun behind' => behind'.not_ahead ahead,
      behindIns.lt fun behind' => behind'.not_ahead ahead⟩
  by_cases before : d.lt a i
  · simp only [before, if_true]
    refine ⟨placed _, rfl, ?_, ?_, ?_, ?_, ?_, (by rintro ⟨⟩),
      fun y there x deleted _ => notPastDel y there x deleted, kept⟩
    · intro x shown
      constructor
      · exact fun notBefore => lt_of_lt_of_not_lt before notBefore
      · exact fun later => asymm (afterBoth (nearest x shown later)).2
    · exact fun x _ notBefore => asymm (lt_of_lt_of_not_lt before notBefore)
    · exact fun x _ notBefore => ⟨i, rfl, notBefore⟩
    · exact fun x _ notBefore => ⟨a, rfl, asymm (lt_of_lt_of_not_lt before notBefore)⟩
    · rintro - y ⟨⟩ x _ notBefore _
      exact notBefore
  · have before' : d.lt i a := Dir.lt_of_not_lt_of_ne before (Overlay.ne_of_ins live inserted)
    simp only [before, if_false]
    refine ⟨placed _, rfl, ?_, ?_, ?_, ?_, (by rintro ⟨⟩), ?_,
      fun y there x deleted _ => notPastDel y there x deleted, kept⟩
    · intro x shown
      constructor
      · exact fun notBefore => lt_of_lt_of_not_lt before' notBefore
      · exact fun later => asymm (afterBoth (nearestIns x shown later)).1
    · exact fun x _ notBefore => asymm (lt_of_lt_of_not_lt before' notBefore)
    · exact fun x _ notBefore => ⟨i, rfl, asymm (lt_of_lt_of_not_lt before' notBefore)⟩
    · exact fun x _ notBefore => ⟨a, rfl, notBefore⟩
    · rintro - y ⟨⟩ x _ notBefore _
      exact notBefore

end

end Pairs

section

variable (moveto : MovetoUnpacked α) (ov : Overlay α) (opcode : Opcode) (k : α) (c : BtCursor α)

/-- The part of a range scan by rowid that follows the three seeks is right. -/
def ChoiceShows (res resIns : Int) : Prop :=
  let chosen := chooseCursor moveto ov opcode c res resIns false false
  ScanShows ov opcode.dir (opcode.stepsOff chosen.2)
    { chosen.1 with pCurDel := refetchDel moveto ov (Probe.exact k) opcode chosen.1.pCurDel }
    (opcode.inRange k)

/-- A range scan by rowid shows exactly the range of the view. -/
def RangeShown : Prop :=
  ∃ out, rangeScan moveto ov (.intKey k) opcode c = some out ∧
    Lists ov opcode.dir (opcode.inRange k) out

end

section Choices

variable {moveto : MovetoUnpacked α} {ov : Overlay α} {opcode : Opcode} {k a i : α}
  {pCur pCurIns pCurDel : Option α} {state : CursorUse} {res resIns : Int}

/-- A range scan is right if what follows the three seeks is. -/
theorem rangeShown_iff {c : BtCursor α} : RangeShown moveto ov opcode k c ↔
    ChoiceShows moveto ov opcode k
      { (seekShared moveto ov (.intKey k) opcode c).1 with
        pCurIns := moveto.land .ins ov.ins (Probe.exact k) }
      (seekShared moveto ov (.intKey k) opcode c).2.1
      ((Probe.exact k).pRes (moveto.land .ins ov.ins (Probe.exact k))) := by
  have unseen : (seekShared moveto ov (.intKey k) opcode c).2.2 = false := by
    unfold seekShared
    split_ifs <;> rfl
  unfold RangeShown ChoiceShows rangeScan sqlite3BtreeMovetoUnpackedAll
  dsimp only
  rw [unseen]
  exact Iff.rfl

/-- Neither source of a match has one. -/
theorem not_match (apart : resIns ≠ 0) : ¬ (false = true ∨ resIns = 0) := by simp [apart]

/-- The key was inserted: its cursor leads. -/
theorem choice_inserted (seeks : opcode.Seeks)
    (near : Near ov.live (Probe.exact k) opcode.dir pCur res)
    (placedDel : ∀ x, pCurDel = some x → x ∈ ov.del) (inserted : k ∈ ov.ins)
    (ready : ∀ y, pCur = some y → ∀ x ∈ ov.del, ¬ opcode.dir.lt x k → opcode.dir.lt y x →
      NotPast opcode.dir (refetchDel moveto ov (Probe.exact k) opcode pCurDel) x) :
    ChoiceShows moveto ov opcode k ⟨pCur, some k, pCurDel, state⟩ res 0 := by
  unfold ChoiceShows
  rw [chooseCursor_trans seeks (.inr rfl)]
  refine At.shows_range seeks ?_
  exact at_trans (exact_sharp k) near (placed_refetch placedDel) inserted
    (fun behind => irrefl _ k (exact_behind.1 behind)) ready

/-- The key is live: its cursor leads. -/
theorem choice_live (seeks : opcode.Seeks)
    (near : Near ov.ins (Probe.exact k) opcode.dir pCurIns resIns) (apart : resIns ≠ 0)
    (placedDel : ∀ x, pCurDel = some x → x ∈ ov.del) (live : k ∈ ov.live)
    (ready : DelReady ov opcode.dir (some k) pCurDel) :
    ChoiceShows moveto ov opcode k ⟨some k, pCurIns, pCurDel, state⟩ 0 resIns := by
  unfold ChoiceShows
  rw [chooseCursor_shared seeks (not_match apart) (.inr rfl)]
  refine At.shows_range seeks ?_
  exact at_shared (exact_sharp k) near (placed_refetch placedDel) live
    (fun behind => irrefl _ k (exact_behind.1 behind)) ready.refetch

/-- With nothing inserted the shared cursor leads. -/
theorem choiceShows_no_ins (seeks : opcode.Seeks) (apart : res ≠ 0) (noneIns : ov.ins = ∅) :
    ChoiceShows moveto ov opcode k
        ⟨some a, moveto.land .ins ov.ins (Probe.exact k), pCurDel, state⟩ res
        ((Probe.exact k).pRes (moveto.land .ins ov.ins (Probe.exact k))) ↔
      ScanShows ov opcode.dir (opcode.stepsOff res)
        ⟨some a, none, refetchDel moveto ov (Probe.exact k) opcode pCurDel, .useShared⟩
        (opcode.inRange k) := by
  have nowhere : moveto.land .ins ov.ins (Probe.exact k) = none := by
    cases landed : moveto.land .ins ov.ins (Probe.exact k) with
    | none => rfl
    | some i => exact absurd noneIns (Finset.ne_empty_of_mem (moveto.land_mem landed))
  unfold ChoiceShows
  rw [nowhere, show (Probe.exact k).pRes none = -1 from rfl,
    chooseCursor_apart seeks (not_match (by decide)) (not_match apart)]

/-- A key in neither part of the view is not in the view. -/
theorem absent_of_not_mem (notLive : k ∉ ov.live) (notIns : k ∉ ov.ins) :
    ∀ x, x ∈ ov.live ∨ x ∈ ov.ins → x ≠ k := by
  rintro x (inside | inside) rfl
  · exact notLive inside
  · exact notIns inside

variable (absent : ∀ x, x ∈ ov.live ∨ x ∈ ov.ins → x ≠ k)

/-- A seek reports no match for a missing key. -/
theorem Near.res_ne_zero {content : Finset α}
    (near : Near content (Probe.exact k) opcode.dir pCur res) (missing : ∀ x ∈ content, x ≠ k) :
    res ≠ 0 := by
  intro zero
  obtain ⟨x, inside, same⟩ := near.res_eq_zero.1 zero
  exact missing x inside (exact_eq.1 same)

include absent

section

variable (seeks : opcode.Seeks)

include seeks

/-- A single leading cursor next to the key is right on either side of it. -/
theorem shows_of_near {content : Finset α} {c : BtCursor α}
    (near : Near content (Probe.exact k) opcode.dir (some a) res)
    (all : ∀ x, x ∈ ov.live ∨ x ∈ ov.ins → x ∈ content) (at_ : At ov opcode.dir c a) :
    ScanShows ov opcode.dir (opcode.stepsOff res) c (opcode.inRange k) := by
  cases near with
  | on _ _ same =>
    obtain rfl := exact_eq.1 same
    exact at_.shows_range seeks
  | ahead _ _ ahead nearest =>
    rw [At.shows_ahead_iff absent seeks at_]
    intro x inView
    constructor
    · exact fun notBefore => lt_of_lt_of_not_lt (exact_ahead.1 ahead) notBefore
    · intro later
      refine nearest x (all x inView) fun behind => ?_
      exact asymm later (exact_behind.1 behind)
  | behind _ _ behind nearest =>
    rw [At.shows_behind_iff absent seeks at_]
    intro x inView
    constructor
    · exact fun later => exact_ahead.1 (nearest x (all x inView) later)
    · exact fun later => Dir.trans (exact_behind.1 behind) later

/-- Nothing is live and the key is not inserted. -/
theorem choice_only_ins (near : Near ov.ins (Probe.exact k) opcode.dir pCurIns resIns)
    (noneLive : ov.live = ∅) (placedDel : ∀ x, pCurDel = some x → x ∈ ov.del) :
    ChoiceShows moveto ov opcode k ⟨none, pCurIns, pCurDel, state⟩ (-1) resIns := by
  have apart := near.res_ne_zero fun x inside => absent x (.inr inside)
  have onlyIns : ∀ x, x ∈ ov.live ∨ x ∈ ov.ins → x ∈ ov.ins := fun x inView =>
    inView.resolve_left fun live => absurd noneLive (Finset.ne_empty_of_mem live)
  unfold ChoiceShows
  rw [chooseCursor_apart seeks (not_match apart) (by simp)]
  cases pCurIns with
  | none =>
    cases near with
    | nowhere empty =>
      exact scan_nothing rfl rfl fun x inView =>
        absurd empty (Finset.ne_empty_of_mem (onlyIns x inView))
  | some i =>
    refine shows_of_near absent seeks near onlyIns ?_
    exact at_ins near.mem (by rintro y ⟨⟩) (placed_refetch placedDel)
      (fun x live => absurd noneLive (Finset.ne_empty_of_mem live)) (by rintro y ⟨⟩)

/-- Nothing is inserted and the key is not live. -/
theorem choice_only_live (near : Near ov.live (Probe.exact k) opcode.dir (some a) res)
    (noneIns : ov.ins = ∅) (placedDel : ∀ x, pCurDel = some x → x ∈ ov.del)
    (ready : DelReady ov opcode.dir (some a) (refetchDel moveto ov (Probe.exact k) opcode pCurDel)) :
    ChoiceShows moveto ov opcode k ⟨some a, none, pCurDel, state⟩ res (-1) := by
  have apart := near.res_ne_zero fun x inside => absent x (.inl inside)
  unfold ChoiceShows
  rw [chooseCursor_apart seeks (by simp) (not_match apart)]
  have noEntry : ∀ x, x ∉ ov.ins := fun x inserted =>
    absurd noneIns (Finset.ne_empty_of_mem inserted)
  refine shows_of_near absent seeks near (fun x inView => inView.resolve_right (noEntry x)) ?_
  exact at_live near.mem (by rintro y ⟨⟩) (placed_refetch placedDel)
    (fun x inserted => absurd inserted (noEntry x)) ready

omit absent in
/-- With two entries next to the key and no match, the sides decide. -/
theorem choiceShows_iff (apart : res ≠ 0) (apartIns : resIns ≠ 0) :
    ChoiceShows moveto ov opcode k ⟨some a, some i, pCurDel, state⟩ res resIns ↔
      let side := sqlite3BtreeMovetoSameSide ov opcode
        ⟨some a, some i, moveto.land .del ov.del (Probe.exact a), state⟩ res resIns
      ScanShows ov opcode.dir (opcode.stepsOff side.2)
        { side.1 with pCurDel := refetchDel moveto ov (Probe.exact k) opcode side.1.pCurDel }
        (opcode.inRange k) := by
  unfold ChoiceShows
  rw [chooseCursor_apart seeks (not_match apartIns) (not_match apart)]
  exact Iff.rfl

variable (placedDel : ∀ x, pCurDel = some x → x ∈ ov.del)
  (ready : DelReady ov opcode.dir (some a) pCurDel)

include placedDel ready

/-- Past the key, the first of two cursors leads rightly. -/
theorem shows_first (near : Near ov.live (Probe.exact k) opcode.dir (some a) opcode.dir.sign)
    (nearIns : Near ov.ins (Probe.exact k) opcode.dir (some i) opcode.dir.sign) :
    ScanShows ov opcode.dir (opcode.stepsOff opcode.dir.sign)
      ⟨some a, some i, pCurDel, if opcode.dir.lt a i then .useShared else .useTrans⟩
      (opcode.inRange k) := by
  obtain ⟨live, ahead, nearest⟩ := near.of_ahead
  obtain ⟨inserted, aheadIns, nearestIns⟩ := nearIns.of_ahead
  rw [At.shows_ahead_iff absent seeks
    (at_first live inserted placedDel ready ahead aheadIns nearest nearestIns)]
  rw [exact_ahead] at ahead aheadIns
  have notBehind : ∀ {x}, opcode.dir.lt k x → ¬ (Probe.exact k).Behind opcode.dir x :=
    fun later behind => asymm later (exact_behind.1 behind)
  intro x inView
  constructor
  · intro notBefore
    refine lt_of_lt_of_not_lt ?_ notBefore
    split_ifs
    · exact ahead
    · exact aheadIns
  · intro later
    split_ifs with before
    · rcases inView with live' | inserted'
      · exact nearest x live' (notBehind later)
      · exact fun sooner => nearestIns x inserted' (notBehind later) (Dir.trans sooner before)
    · rcases inView with live' | inserted'
      · exact Dir.not_lt_trans before (nearest x live' (notBehind later))
      · exact nearestIns x inserted' (notBehind later)

/-- Past the key, the last of two cursors leads wrongly: the entry of the other one is lost. -/
theorem not_shows_last (live : a ∈ ov.live) (inserted : i ∈ ov.ins) (ahead : opcode.dir.lt k a)
    (aheadIns : opcode.dir.lt k i) :
    ¬ ScanShows ov opcode.dir (opcode.stepsOff opcode.dir.sign)
      ⟨some a, some i, pCurDel, if opcode.dir.lt a i then .useTrans else .useShared⟩
      (opcode.inRange k) := by
  rw [At.shows_ahead_iff absent seeks (at_last live inserted placedDel ready)]
  intro same
  by_cases before : opcode.dir.lt a i
  · simp only [before, if_true] at same
    exact (same a (.inl live)).2 ahead before
  · simp only [before, if_false] at same
    exact (same i (.inr inserted)).2 aheadIns
      (Dir.lt_of_not_lt_of_ne before (Overlay.ne_of_ins live inserted))

variable (near : Near ov.live (Probe.exact k) opcode.dir (some a) (-opcode.dir.sign))
  (nearIns : Near ov.ins (Probe.exact k) opcode.dir (some i) (-opcode.dir.sign))

include near nearIns

/-- Before the key, the last of two cursors leads rightly. -/
theorem shows_last :
    ScanShows ov opcode.dir (opcode.stepsOff (-opcode.dir.sign))
      ⟨some a, some i, pCurDel, if opcode.dir.lt a i then .useTrans else .useShared⟩
      (opcode.inRange k) := by
  obtain ⟨live, behind, nearest⟩ := near.of_behind
  obtain ⟨inserted, behindIns, nearestIns⟩ := nearIns.of_behind
  rw [At.shows_behind_iff absent seeks (at_last live inserted placedDel ready)]
  rw [exact_behind] at behind behindIns
  intro x inView
  constructor
  · intro later
    apply exact_ahead.1
    split_ifs at later with before
    · rcases inView with live' | inserted'
      · exact nearest x live' (Dir.trans before later)
      · exact nearestIns x inserted' later
    · rcases inView with live' | inserted'
      · exact nearest x live' later
      · exact nearestIns x inserted' (Dir.lt_of_not_lt_of_lt before later)
  · intro later
    split_ifs
    · exact Dir.trans behindIns later
    · exact Dir.trans behind later

/-- Before the key, the first of two cursors leads wrongly: the entry of the other one is shown
though it is not in the range. -/
theorem not_shows_first :
    ¬ ScanShows ov opcode.dir (opcode.stepsOff (-opcode.dir.sign))
      ⟨some a, some i, pCurDel, if opcode.dir.lt a i then .useShared else .useTrans⟩
      (opcode.inRange k) := by
  obtain ⟨live, behind, nearest⟩ := near.of_behind
  obtain ⟨inserted, behindIns, nearestIns⟩ := nearIns.of_behind
  have upward : ∀ {o : α} (x y : α), ¬ opcode.dir.lt x o → opcode.dir.lt x y →
      ¬ opcode.dir.lt y o := fun x y notBefore later past => notBefore (Dir.trans later past)
  have leads := leads_first live inserted placedDel ready nearest nearestIns behind behindIns
  by_cases before : opcode.dir.lt a i
  · simp only [before, if_true] at leads ⊢
    rw [leads.advances.shows_behind_iff absent seeks upward]
    intro same
    exact asymm ((same i (.inr inserted)).1 (irrefl _ i)) (exact_behind.1 behindIns)
  · simp only [before, if_false] at leads ⊢
    rw [leads.advances.shows_behind_iff absent seeks upward]
    intro same
    exact asymm ((same a (.inl live)).1 (irrefl _ a)) (exact_behind.1 behind)

end

omit absent in
/-- The sides before and past the key differ. -/
theorem neg_sign_mul_sign : -opcode.dir.sign * opcode.dir.sign < 0 := by
  cases opcode.dir <;> decide

omit absent in
/-- The same with the factors exchanged. -/
theorem sign_mul_neg_sign : opcode.dir.sign * -opcode.dir.sign < 0 := by
  cases opcode.dir <;> decide

/-- The shared cursor before the key and the insertion cursor past it: right just when nothing
live lies past the key. -/
theorem choice_shared_behind (seeks : opcode.Seeks) (kept : ov.deleteAll = false)
    (near : Near ov.live (Probe.exact k) opcode.dir (some a) (-opcode.dir.sign))
    (nearIns : Near ov.ins (Probe.exact k) opcode.dir (some i) opcode.dir.sign) :
    ChoiceShows moveto ov opcode k ⟨some a, some i, pCurDel, state⟩ (-opcode.dir.sign)
      opcode.dir.sign ↔ ∀ x ∈ ov.live, ¬ opcode.dir.lt k x := by
  obtain ⟨-, behind, nearest⟩ := near.of_behind
  obtain ⟨inserted, aheadIns, nearestIns⟩ := nearIns.of_ahead
  have missing := near.res_ne_zero fun x inside => absent x (.inl inside)
  have missingIns := nearIns.res_ne_zero fun x inside => absent x (.inr inside)
  rw [choiceShows_iff seeks missing missingIns, sameSide_shared_behind rfl rfl
    neg_sign_mul_sign sign_mul_neg_sign]
  have moved := Approaching.skip (Q := opcode.dir.lt a)
    (c := ⟨step opcode.dir ov.shared a, some i, moveto.land .del ov.del (Probe.exact a), state⟩)
    (approach_step kept (fun x => moveto.land_mem) (fun x _ => Iff.rfl) (ready_landed a rfl))
  generalize btreeSeekToExist ov opcode.dir
    ⟨step opcode.dir ov.shared a, some i, moveto.land .del ov.del (Probe.exact a), state⟩ = m
    at moved
  obtain ⟨pCur, pCurIns, pCurDel', state'⟩ := m
  obtain rfl : pCurIns = some i := moved.ins
  have past : ∀ x ∈ ov.live, (opcode.dir.lt a x ↔ opcode.dir.lt k x) := by
    intro x inside
    constructor
    · exact fun later => exact_ahead.1 (nearest x inside later)
    · exact fun later => Dir.trans (exact_behind.1 behind) later
  cases pCur with
  | none =>
    have noneAhead : ∀ x ∈ ov.live, ¬ opcode.dir.lt k x := fun x inside later =>
      first_eq_none_iff.1 moved.shared.symm x
        (Finset.mem_filter.2 ⟨inside, (past x inside).2 later⟩)
    refine iff_of_true ?_ noneAhead
    have at_ : At ov opcode.dir
        ⟨none, some i, refetchDel moveto ov (Probe.exact k) opcode pCurDel', .useTrans⟩ i := by
      refine at_ins inserted (by rintro y ⟨⟩) (placed_refetch moved.del) ?_
        (by rintro y ⟨⟩)
      intro x inside later
      exact absurd (Dir.trans (exact_ahead.1 aheadIns) later) (noneAhead x inside)
    refine (At.shows_ahead_iff absent seeks at_).2 fun x inView => ?_
    constructor
    · exact fun notBefore => lt_of_lt_of_not_lt (exact_ahead.1 aheadIns) notBefore
    · intro later
      rcases inView with live | inserted'
      · exact absurd later (noneAhead x live)
      · refine nearestIns x inserted' fun behind' => ?_
        exact asymm later (exact_behind.1 behind')
  | some b =>
    obtain ⟨live, later⟩ := Finset.mem_filter.1 (first_eq_some_iff.1 moved.shared.symm).1
    have ahead := (past b live).1 later
    refine iff_of_false ?_ fun noneAhead => noneAhead b live ahead
    refine not_shows_last absent seeks (placed_refetch moved.del) (DelReady.refetch ?_) live
      inserted ahead (exact_ahead.1 aheadIns)
    exact moved.notPastDel

/-- The insertion cursor before the key and the shared cursor past it: right just when nothing
inserted lies past the key. -/
theorem choice_ins_behind (seeks : opcode.Seeks)
    (near : Near ov.live (Probe.exact k) opcode.dir (some a) opcode.dir.sign)
    (nearIns : Near ov.ins (Probe.exact k) opcode.dir (some i) (-opcode.dir.sign)) :
    ChoiceShows moveto ov opcode k ⟨some a, some i, pCurDel, state⟩ opcode.dir.sign
      (-opcode.dir.sign) ↔ ∀ x ∈ ov.ins, ¬ opcode.dir.lt k x := by
  obtain ⟨live, ahead, nearest⟩ := near.of_ahead
  obtain ⟨inserted, behindIns, nearestIns⟩ := nearIns.of_behind
  have missing := near.res_ne_zero fun x inside => absent x (.inl inside)
  have missingIns := nearIns.res_ne_zero fun x inside => absent x (.inr inside)
  have sameSign : ¬ opcode.dir.sign * opcode.dir.sign < 0 := by cases opcode.dir <;> decide
  rw [choiceShows_iff seeks missing missingIns, sameSide_ins_behind rfl rfl
    sign_mul_neg_sign sameSign]
  have past : ∀ x ∈ ov.ins, (opcode.dir.lt i x ↔ opcode.dir.lt k x) := by
    intro x inside
    constructor
    · exact fun later => exact_ahead.1 (nearestIns x inside later)
    · exact fun later => Dir.trans (exact_behind.1 behindIns) later
  cases moved : step opcode.dir ov.ins i with
  | none =>
    have noneAhead : ∀ x ∈ ov.ins, ¬ opcode.dir.lt k x := fun x inside later =>
      step_eq_none_iff.1 moved x inside ((past x inside).2 later)
    refine iff_of_true ?_ noneAhead
    have placedIns : ∀ x, (none : Option α) = some x → x ∈ ov.ins := by rintro y ⟨⟩
    have at_ := at_live (d := opcode.dir) live placedIns
      (placed_landed moveto (Probe.exact k) opcode a)
      (fun x inside later =>
        absurd (Dir.trans (exact_ahead.1 ahead) later) (noneAhead x inside))
      (DelReady.refetch ready_landed)
    refine (At.shows_ahead_iff absent seeks at_).2 fun x inView => ?_
    constructor
    · exact fun notBefore => lt_of_lt_of_not_lt (exact_ahead.1 ahead) notBefore
    · intro later
      rcases inView with live' | inserted'
      · refine nearest x live' fun behind' => ?_
        exact asymm later (exact_behind.1 behind')
      · exact absurd later (noneAhead x inserted')
  | some j =>
    obtain ⟨⟨inserted', later⟩, -⟩ := step_eq_some_iff.1 moved
    have aheadIns := (past j inserted').1 later
    refine iff_of_false ?_ fun noneAhead => noneAhead j inserted' aheadIns
    exact not_shows_last absent seeks (placed_refetch fun x => moveto.land_mem)
      (DelReady.refetch ready_landed) live inserted' (exact_ahead.1 ahead) aheadIns

omit absent in
/-- The choice of the leading cursor is right if it is with two entries next to an absent key, and
the deletion cursor is where one tree alone decides. -/
theorem choice_of_cases (seeks : opcode.Seeks)
    (near : Near ov.live (Probe.exact k) opcode.dir pCur res)
    (nearIns : Near ov.ins (Probe.exact k) opcode.dir pCurIns resIns)
    (placedDel : ∀ x, pCurDel = some x → x ∈ ov.del)
    (ready : k ∈ ov.ins → ∀ y, pCur = some y → ∀ x ∈ ov.del, ¬ opcode.dir.lt x k →
      opcode.dir.lt y x →
      NotPast opcode.dir (refetchDel moveto ov (Probe.exact k) opcode pCurDel) x)
    (readyLive : k ∈ ov.live → DelReady ov opcode.dir pCur pCurDel)
    (readyAlone : ov.ins = ∅ → DelReady ov opcode.dir pCur
      (refetchDel moveto ov (Probe.exact k) opcode pCurDel))
    (both : ∀ a i, pCur = some a → pCurIns = some i → k ∉ ov.live → k ∉ ov.ins →
      ChoiceShows moveto ov opcode k ⟨pCur, pCurIns, pCurDel, state⟩ res resIns) :
    ChoiceShows moveto ov opcode k ⟨pCur, pCurIns, pCurDel, state⟩ res resIns := by
  by_cases inserted : k ∈ ov.ins
  · obtain ⟨rfl, rfl⟩ := nearIns.eq_of_match (exact_sharp k) inserted (exact_eq.2 rfl)
    exact choice_inserted seeks near placedDel inserted (ready inserted)
  by_cases live : k ∈ ov.live
  · obtain ⟨rfl, rfl⟩ := near.eq_of_match (exact_sharp k) live (exact_eq.2 rfl)
    refine choice_live seeks nearIns (nearIns.res_ne_zero ?_) placedDel live (readyLive live)
    rintro x inside rfl
    exact inserted inside
  have absent := absent_of_not_mem live inserted
  cases pCur with
  | none =>
    cases near with
    | nowhere noneLive => exact choice_only_ins absent seeks nearIns noneLive placedDel
  | some a =>
    cases pCurIns with
    | none =>
      cases nearIns with
      | nowhere noneIns =>
        exact choice_only_live absent seeks near noneIns placedDel (readyAlone noneIns)
    | some i => exact both a i rfl rfl live inserted

end Choices

section Failing

variable {ov : Overlay α} {opcode : Opcode} {k : α} {c : BtCursor α} {fails : Prop}

/-- A scan fails if the choice is wrong wherever the search of the shared tree ends. -/
theorem not_rangeShown (moveto : MovetoUnpacked α) (seeks : opcode.Seeks)
    (kept : ov.deleteAll = false) (placed : Placed ov c)
    (wrong : ∀ {pCur pCurDel state res}, SharedLanding moveto ov (Probe.exact k) pCur pCurDel res →
      ¬ ChoiceShows moveto ov opcode k
        ⟨pCur, moveto.land .ins ov.ins (Probe.exact k), pCurDel, state⟩ res
        ((Probe.exact k).pRes (moveto.land .ins ov.ins (Probe.exact k)))) :
    ∃ moveto, ¬ RangeShown moveto ov opcode k c := by
  refine ⟨moveto, ?_⟩
  rw [rangeShown_iff]
  exact wrong (seekShared_landing moveto (.intKey k) kept seeks.asked placed.del)

/-- A scan is right wherever the seeks land just when the input is not a failing one. -/
theorem rangeShown_iff_not {d : Dir} (dir : opcode.dir = d)
    (wrong : fails → ∀ {c}, Placed ov c → ∃ moveto, ¬ RangeShown moveto ov opcode k c)
    (right : ¬ fails → ∀ {moveto c}, Placed ov c → RangeShown moveto ov opcode k c) :
    (∀ (moveto : MovetoUnpacked α) (c : BtCursor α), Placed ov c →
      ∃ out, rangeScan moveto ov (.intKey k) opcode c = some out ∧
        Lists ov d (opcode.inRange k) out) ↔ ¬ fails := by
  subst dir
  refine ⟨fun shown failing => ?_, fun safe _ _ placed => right safe placed⟩
  obtain ⟨moveto, notShown⟩ := wrong failing (c := ⟨none, none, none, .useShared⟩) Placed.nowhere
  exact notShown (shown moveto _ Placed.nowhere)

end Failing

end SQLumDash.Scan
