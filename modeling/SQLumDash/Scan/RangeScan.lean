import SQLumDash.Scan.SeekSpec

/-!
# Range scans

What a scan shows once its seek is over, and what the choice of the leading cursor makes
of the positions the seek left. Positions are described by the side of the key they are
on in the direction of the scan, so that both directions share the lemmas.
-/

namespace SQLumDash.Scan

open OrderedCursor

variable {α : Type*} [LinearOrder α]

section Lists

variable {ov : Overlay α} {d : Dir} {P Q : α → Prop} {out : List (Visit α)}

/-- A property may be exchanged for one that agrees with it on the view. -/
theorem Lists.congr (lists : Lists ov d P out)
    (same : ∀ x, x ∈ ov.live ∨ x ∈ ov.ins → (P x ↔ Q x)) : Lists ov d Q out := by
  refine ⟨lists.1, fun visit => ?_⟩
  rw [lists.2]
  constructor
  · exact fun ⟨shown, holds⟩ => ⟨shown, (same visit.key shown.mem).1 holds⟩
  · exact fun ⟨shown, holds⟩ => ⟨shown, (same visit.key shown.mem).2 holds⟩

/-- One list shows one part of the view. -/
theorem Lists.agree (left : Lists ov d P out) (right : Lists ov d Q out) :
    ∀ x, x ∈ ov.live ∨ x ∈ ov.ins → (P x ↔ Q x) := by
  intro x inView
  obtain ⟨use, shown⟩ := Overlay.shows_iff.2 inView
  constructor
  · exact fun holds => ((right.2 ⟨use, x⟩).1 ((left.2 ⟨use, x⟩).2 ⟨shown, holds⟩)).2
  · exact fun holds => ((left.2 ⟨use, x⟩).1 ((right.2 ⟨use, x⟩).2 ⟨shown, holds⟩)).2

end Lists

section Scan

variable {ov : Overlay α} {d : Dir} {c : BtCursor α} {key : α} {off : Bool} {P Q : α → Prop}

/-- The rest of a scan ends and shows exactly the entries of the view with `P`, in order. -/
def ScanShows (ov : Overlay α) (d : Dir) (off : Bool) (c : BtCursor α) (P : α → Prop) : Prop :=
  ∃ out, scanFrom ov d off c = some out ∧ Lists ov d P out

/-- The same for the rest of a scan. -/
theorem ScanShows.congr (shows : ScanShows ov d off c P)
    (same : ∀ x, x ∈ ov.live ∨ x ∈ ov.ins → (P x ↔ Q x)) : ScanShows ov d off c Q := by
  obtain ⟨out, scanned, lists⟩ := shows
  exact ⟨out, scanned, lists.congr same⟩

/-- A scan that shows the entries with `P` shows those with `Q` just when they are the same. -/
theorem ScanShows.iff (shows : ScanShows ov d off c P) :
    ScanShows ov d off c Q ↔ ∀ x, x ∈ ov.live ∨ x ∈ ov.ins → (P x ↔ Q x) := by
  constructor
  · rintro ⟨out', scanned', lists'⟩
    obtain ⟨out, scanned, lists⟩ := shows
    rw [scanned] at scanned'
    cases scanned'
    exact lists.agree lists'
  · exact shows.congr

/-- The fuel of a scan is more than what comes after an entry. -/
theorem scan_fuel (key : α) : (ov.live.filter (d.lt key)).card + (ov.ins.filter (d.lt key)).card <
    ov.shared.card + ov.ins.card + 1 := by
  have live := Finset.card_le_card ((Finset.filter_subset (d.lt key) ov.live).trans ov.live_subset)
  have ins := Finset.card_filter_le ov.ins (d.lt key)
  omega

/-- A scan that starts on an entry of the view shows the view from there on. -/
theorem At.scan (at_ : At ov d c key) : ScanShows ov d false c (fun x => ¬ d.lt x key) :=
  at_.visits _ (scan_fuel key)

/-- A scan that starts with a step to the first entries with `Q` shows the entries with `Q`. -/
theorem Advances.scan [DecidablePred Q] (advances : Advances ov d Q c)
    (upward : ∀ x y, Q x → d.lt x y → Q y) : ScanShows ov d true c Q := by
  unfold ScanShows scanFrom
  simp only [if_true]
  rcases advances.cases upward with ⟨done, nothing⟩ | ⟨ok, key, at_, holds, least⟩
  · generalize sqlite3BtreeAdvanceAll ov d c = result at done
    obtain ⟨c', rc⟩ := result
    obtain rfl : rc = .done := done
    exact ⟨[], rfl, lists_nil nothing⟩
  · generalize sqlite3BtreeAdvanceAll ov d c = result at ok at_
    obtain ⟨c', rc⟩ := result
    obtain rfl : rc = .ok := ok
    obtain ⟨out, visited, lists⟩ := at_.visits _ (scan_fuel key)
    refine ⟨out, visited, lists.congr fun x inView => ?_⟩
    constructor
    · intro notBefore
      rcases Dir.not_lt_iff.1 notBefore with rfl | later
      · exact holds
      · exact upward key x holds later
    · exact least x inView

/-- A scan that steps off an entry of the view shows what comes after it. -/
theorem At.scan_off (at_ : At ov d c key) : ScanShows ov d true c (d.lt key) :=
  at_.advances.scan fun _ _ => Dir.trans

/-- With both positions gone nothing is shown, stepping first or not. -/
theorem scan_nothing (gone : c.pCur = none) (goneIns : c.pCurIns = none)
    (none : ∀ x, x ∈ ov.live ∨ x ∈ ov.ins → ¬ P x) : ScanShows ov d off c P := by
  obtain ⟨pCur, pCurIns, pCurDel, state⟩ := c
  obtain rfl : pCur = Option.none := gone
  obtain rfl : pCurIns = Option.none := goneIns
  refine ⟨[], ?_, lists_nil none⟩
  cases off <;> cases state <;> rfl

end Scan

section Choice

variable {moveto : MovetoUnpacked α} {ov : Overlay α} {probe : Probe α} {d : Dir}
  {opcode : Opcode} {c : BtCursor α} {pCur pCurIns pCurDel : Option α} {res resIns : Int}
  {eqSeen eqSeenIns : Bool} {a i x : α}

/-- The opcode is one of the four range seeks. -/
def Opcode.Seeks (opcode : Opcode) : Prop := opcode.seeksUp = true ∨ opcode.seeksDown = true

omit [LinearOrder α] in
/-- A seek of the virtual machine has an opcode. -/
theorem Opcode.Seeks.asked (seeks : opcode.Seeks) : opcode ≠ .zero := by
  rintro rfl
  rcases seeks with up | down
  · cases up
  · cases down

/-- The direction of an opcode as a sign. -/
theorem Opcode.direction_eq : opcode.direction = opcode.dir.sign := by cases opcode <;> rfl

/-- A cursor that does not lead is moved over the key if it stands on the near side of it. -/
def overtake (d : Dir) (t : Finset α) (res : Int) (cursor : Option α) : Option α :=
  if d.sign * res < 0 then advance d t cursor else cursor

/-- An inserted match makes the insertion cursor lead. -/
theorem chooseCursor_trans (seeks : opcode.Seeks) (found : eqSeenIns = true ∨ resIns = 0) :
    chooseCursor moveto ov opcode c res resIns eqSeen eqSeenIns =
      ({ c with pCur := overtake opcode.dir ov.shared res c.pCur, state := .useTrans }, resIns) := by
  have outer : eqSeen = true ∨ eqSeenIns = true ∨ resIns = 0 ∨ res = 0 := by tauto
  unfold chooseCursor overtake
  rw [if_pos outer, if_pos found]
  cases opcode <;>
    simp_all [Opcode.Seeks, Opcode.seeksUp, Opcode.seeksDown, Opcode.dir, Dir.sign]

/-- A live match without an inserted one makes the shared cursor lead. -/
theorem chooseCursor_shared (seeks : opcode.Seeks) (noneIns : ¬ (eqSeenIns = true ∨ resIns = 0))
    (found : eqSeen = true ∨ res = 0) :
    chooseCursor moveto ov opcode c res resIns eqSeen eqSeenIns =
      ({ c with pCurIns := overtake opcode.dir ov.ins resIns c.pCurIns, state := .useShared },
        res) := by
  have outer : eqSeen = true ∨ eqSeenIns = true ∨ resIns = 0 ∨ res = 0 := by tauto
  unfold chooseCursor overtake
  rw [if_pos outer, if_neg noneIns]
  cases opcode <;>
    simp_all [Opcode.Seeks, Opcode.seeksUp, Opcode.seeksDown, Opcode.dir, Dir.sign]

/-- Without a match the positions decide. -/
theorem chooseCursor_apart (seeks : opcode.Seeks) (noneIns : ¬ (eqSeenIns = true ∨ resIns = 0))
    (noneLive : ¬ (eqSeen = true ∨ res = 0)) :
    chooseCursor moveto ov opcode c res resIns eqSeen eqSeenIns =
      match c.pCur, c.pCurIns with
      | some _, some _ =>
        sqlite3BtreeMovetoSameSide ov opcode (btreeIsDeleted moveto ov c).1 res resIns
      | some _, none => ({ c with state := .useShared }, res)
      | none, _ => ({ c with state := .useTrans }, resIns) := by
  have outer : ¬ (eqSeen = true ∨ eqSeenIns = true ∨ resIns = 0 ∨ res = 0) := by tauto
  have either : opcode.seeksUp = true ∨ opcode.seeksDown = true := seeks
  unfold chooseCursor
  rw [if_neg outer]
  cases c.pCur <;> cases c.pCurIns <;> simp only [either, if_true]

/-- A cursor moved over the key is not past anything that is not behind the key. -/
theorem Near.overtake_notPast {content t : Finset α} (sharp : probe.Sharp)
    (near : Near content probe d pCur res) (fewer : content ⊆ t) (inside : x ∈ content)
    (notBehind : ¬ probe.Behind d x) : NotPast d (overtake d t res pCur) x := by
  unfold overtake
  cases near with
  | nowhere empty => exact absurd empty (Finset.ne_empty_of_mem inside)
  | on a _ same => exact ⟨a, by simp, sharp.not_lt same notBehind⟩
  | ahead a _ ahead nearest =>
    refine ⟨a, if_neg ?_, nearest x inside notBehind⟩
    cases d <;> decide
  | behind a _ behind nearest =>
    have moves : d.sign * -d.sign < 0 := by cases d <;> decide
    rw [if_pos moves]
    exact notPast_step (fewer inside) (behind.lt notBehind)

/-- A cursor moved over the key stands on an entry, behind which the one it stood on is not
after it. -/
theorem overtake_cases {t : Finset α} {y : α} (moved : overtake d t res pCur = some y) :
    pCur = some y ∨ ∃ a, pCur = some a ∧ y ∈ t ∧ d.lt a y := by
  unfold overtake at moved
  split_ifs at moved with behind
  · cases pCur with
    | none => cases moved
    | some a => exact .inr ⟨a, rfl, (step_eq_some_iff.1 moved).1⟩
  · exact .inl moved

/-- The cursor stands on an entry. -/
theorem Near.mem {content : Finset α} (near : Near content probe d (some a) res) : a ∈ content := by
  cases near <;> assumption

/-- After a delete-all a cursor next to the key stands nowhere. -/
theorem cleared_of_near (near : Near ov.live probe d pCur res) :
    ov.deleteAll = true → pCur = none := by
  intro flag
  cases pCur with
  | none => rfl
  | some a => exact absurd flag (Overlay.not_deleteAll near.mem)

/-- A cursor led by a live entry, whose insertion cursor is not past anything to come. -/
theorem at_live (live : a ∈ ov.live) (placedIns : ∀ x, pCurIns = some x → x ∈ ov.ins)
    (placedDel : ∀ x, pCurDel = some x → x ∈ ov.del)
    (notPast : ∀ x ∈ ov.ins, d.lt a x → NotPast d pCurIns x)
    (ready : DelReady ov d (some a) pCurDel) :
    At ov d ⟨some a, pCurIns, pCurDel, .useShared⟩ a := by
  refine ⟨⟨?_, placedIns, placedDel⟩, rfl, live, notPast,
    fun x _ later => ⟨a, rfl, Dir.asymm later⟩, ?_,
    fun flag => absurd flag (Overlay.not_deleteAll live)⟩
  · rintro x ⟨⟩
    exact Overlay.live_subset live
  · rintro y ⟨⟩ x deleted notBefore _
    exact ready a rfl x deleted (Dir.lt_of_not_lt_of_ne notBefore (Overlay.ne_of_del deleted live))

/-- A shared cursor moved over the key, with a deletion cursor that is right from `i` on. -/
theorem Near.overtaken (near : Near ov.live probe d pCur res)
    (ready : ∀ y, pCur = some y → ∀ x ∈ ov.del, ¬ d.lt x i → d.lt y x → NotPast d pCurDel x) :
    (∀ y, overtake d ov.shared res pCur = some y → y ∈ ov.shared ∧
      ∀ x ∈ ov.del, ¬ d.lt x i → ¬ d.lt x y → NotPast d pCurDel x) ∧
    (ov.deleteAll = true → overtake d ov.shared res pCur = none) := by
  have inLive : ∀ y, pCur = some y → y ∈ ov.live := by
    rintro y rfl
    exact near.mem
  constructor
  · intro y moved
    rcases overtake_cases moved with there | ⟨b, there, inside, later⟩
    · have live := inLive y there
      refine ⟨Overlay.live_subset live, fun x deleted notBefore notBefore' => ?_⟩
      exact ready y there x deleted notBefore
        (Dir.lt_of_not_lt_of_ne notBefore' (Overlay.ne_of_del deleted live))
    · exact ⟨inside, fun x deleted notBefore notBefore' =>
        ready b there x deleted notBefore (Dir.lt_of_lt_of_not_lt later notBefore')⟩
  · intro flag
    have gone := cleared_of_near near flag
    subst gone
    unfold overtake
    split_ifs <;> rfl

/-- The insertion cursor leads from an entry that is not behind the key, the shared cursor having
been moved over the key. -/
theorem at_trans (sharp : probe.Sharp) (near : Near ov.live probe d pCur res)
    (placedDel : ∀ x, pCurDel = some x → x ∈ ov.del) (inserted : i ∈ ov.ins)
    (notBehind : ¬ probe.Behind d i)
    (ready : ∀ y, pCur = some y → ∀ x ∈ ov.del, ¬ d.lt x i → d.lt y x → NotPast d pCurDel x) :
    At ov d ⟨overtake d ov.shared res pCur, some i, pCurDel, .useTrans⟩ i := by
  obtain ⟨overtaken, cleared⟩ := near.overtaken ready
  refine ⟨⟨fun y moved => (overtaken y moved).1, ?_, placedDel⟩, rfl, inserted,
    fun x _ later => ⟨i, rfl, Dir.asymm later⟩, ?_, fun y moved => (overtaken y moved).2, cleared⟩
  · rintro x ⟨⟩
    exact inserted
  · intro x inside later
    refine near.overtake_notPast sharp Overlay.live_subset inside fun behind => ?_
    exact notBehind (behind.of_not_lt (Dir.asymm later))

/-- The shared cursor leads from an entry that is not behind the key, the insertion cursor having
been moved over the key. -/
theorem at_shared (sharp : probe.Sharp) (near : Near ov.ins probe d pCurIns resIns)
    (placedDel : ∀ x, pCurDel = some x → x ∈ ov.del) (live : a ∈ ov.live)
    (notBehind : ¬ probe.Behind d a) (ready : DelReady ov d (some a) pCurDel) :
    At ov d ⟨some a, overtake d ov.ins resIns pCurIns, pCurDel, .useShared⟩ a := by
  refine at_live live ?_ placedDel ?_ ready
  · intro y moved
    rcases overtake_cases moved with there | ⟨b, -, inside, -⟩
    · subst there
      exact near.mem
    · exact inside
  · intro x inside later
    refine near.overtake_notPast sharp (Finset.Subset.refl _) inside fun behind => ?_
    exact notBehind (behind.of_not_lt (Dir.asymm later))

/-- The insertion cursor leads and the shared cursor stands on a live entry or nowhere. -/
theorem at_ins (inserted : i ∈ ov.ins) (inLive : ∀ y, pCur = some y → y ∈ ov.live)
    (placedDel : ∀ x, pCurDel = some x → x ∈ ov.del)
    (notPast : ∀ x ∈ ov.live, d.lt i x → NotPast d pCur x) (ready : DelReady ov d pCur pCurDel) :
    At ov d ⟨pCur, some i, pCurDel, .useTrans⟩ i := by
  refine ⟨⟨fun y there => Overlay.live_subset (inLive y there), ?_, placedDel⟩, rfl, inserted,
    fun x _ later => ⟨i, rfl, Dir.asymm later⟩, notPast, ?_, ?_⟩
  · rintro x ⟨⟩
    exact inserted
  · intro y there x deleted _ notBefore
    exact ready y there x deleted
      (Dir.lt_of_not_lt_of_ne notBefore (Overlay.ne_of_del deleted (inLive y there)))
  · intro flag
    cases pCur with
    | none => rfl
    | some y => exact absurd flag (Overlay.not_deleteAll (inLive y rfl))

/-- The sign of a comparison says which entry comes first. -/
theorem keyCompare_sign : d.sign * keyCompare a i < 0 ↔ d.lt a i := by
  unfold keyCompare
  cases order : compare a i with
  | lt =>
    rw [compare_lt_iff_lt] at order
    cases d
    · simp [Dir.sign, Dir.lt, order]
    · simp [Dir.sign, Dir.lt, order.le]
  | eq =>
    rw [compare_eq_iff_eq] at order
    subst order
    simp
  | gt =>
    rw [compare_gt_iff_gt] at order
    cases d
    · simp [Dir.sign, Dir.lt, order.le]
    · simp [Dir.sign, Dir.lt, order]

section

variable (there : c.pCur = some a) (thereIns : c.pCurIns = some i)

include there thereIns

/-- On the same side above the key, the cursor that comes first in the direction leads; on the
same side below it, the other one. -/
theorem sameSide_same : sqlite3BtreeMovetoSameSide ov opcode c res res =
      ({ c with state := if opcode.dir.lt a i ↔ res < 0 then .useTrans else .useShared }, res) := by
  have same : ¬ res * res < 0 := by
    rw [← Int.natAbs_mul_self]
    exact not_lt.2 (Int.natCast_nonneg _)
  unfold sqlite3BtreeMovetoSameSide chooseSide
  simp only [same, if_false, cursorCompare, there, thereIns, Opcode.direction_eq, keyCompare_sign]
  by_cases below : res < 0
  · simp only [below, if_true, iff_true]
  · by_cases before : opcode.dir.lt a i <;> simp [below, before]

/-- A shared cursor behind the key is moved over it; if it still stands on an entry, the cursor
that comes last in the direction leads. -/
theorem sameSide_shared_behind (opposite : res * resIns < 0) (behind : opcode.dir.sign * res < 0) :
    let moved := btreeSeekToExist ov opcode.dir { c with pCur := step opcode.dir ov.shared a }
    sqlite3BtreeMovetoSameSide ov opcode c res resIns =
      ({ moved with state := match moved.pCur with
          | none => .useTrans
          | some b => if opcode.dir.lt b i then .useTrans else .useShared },
        opcode.dir.sign) := by
  have choose : ∀ m : BtCursor α, m.pCurIns = some i →
      (if m.pCur.isNone then ({ m with state := .useTrans }, opcode.dir.sign)
        else ({ m with state := if opcode.dir.sign * cursorCompare m < 0 then .useTrans
          else .useShared }, opcode.dir.sign)) =
        ({ m with state := match m.pCur with
          | none => .useTrans
          | some b => if opcode.dir.lt b i then .useTrans else .useShared },
          opcode.dir.sign) := by
    rintro ⟨position, _, del, state⟩ ⟨⟩
    cases position with
    | none => rfl
    | some b => simp [cursorCompare, keyCompare_sign]
  unfold sqlite3BtreeMovetoSameSide chooseSide
  simp only [opposite, if_true, Opcode.direction_eq, behind, there]
  exact choose _ thereIns

/-- An insertion cursor behind the key is moved over it; if it still stands on an entry, the
cursor that comes last in the direction leads. -/
theorem sameSide_ins_behind (opposite : res * resIns < 0) (ahead : ¬ opcode.dir.sign * res < 0) :
    sqlite3BtreeMovetoSameSide ov opcode c res resIns =
      ({ c with
          pCurIns := step opcode.dir ov.ins i
          state := match step opcode.dir ov.ins i with
          | none => .useShared
          | some j => if opcode.dir.lt a j then .useTrans else .useShared },
        opcode.dir.sign) := by
  unfold sqlite3BtreeMovetoSameSide chooseSide
  simp only [opposite, if_true, Opcode.direction_eq, ahead, if_false, thereIns]
  cases position : step opcode.dir ov.ins i with
  | none => simp [advance, position]
  | some j => simp [advance, position, cursorCompare, there, keyCompare_sign]

end

/-- Seeking the deletion cursor again does not take it past anything it was not past. -/
theorem notPast_refetch (notPast : NotPast d pCurDel x) :
    NotPast d (refetchDel moveto ov probe opcode pCurDel) x := by
  obtain ⟨y, rfl, order⟩ := notPast
  exact ⟨y, rfl, order⟩

/-- Seeking it again keeps the deletion cursor ready. -/
theorem DelReady.refetch (ready : DelReady ov d pCur pCurDel) :
    DelReady ov d pCur (refetchDel moveto ov probe opcode pCurDel) :=
  fun y there x deleted later => notPast_refetch (ready y there x deleted later)

/-- Seeking it again leaves it on a deleted entry. -/
theorem placed_refetch (placed : ∀ x, pCurDel = some x → x ∈ ov.del) :
    ∀ x, refetchDel moveto ov probe opcode pCurDel = some x → x ∈ ov.del := by
  intro x there
  unfold refetchDel at there
  split_ifs at there
  · exact moveto.land_mem there
  · exact placed x there

/-- So does seeking it to the entry of the shared cursor before. -/
theorem placed_landed (moveto : MovetoUnpacked α) (probe : Probe α) (opcode : Opcode) (a : α) :
    ∀ x, refetchDel moveto ov probe opcode (moveto.land .del ov.del (Probe.exact a)) = some x →
      x ∈ ov.del :=
  placed_refetch fun _ => moveto.land_mem

end Choice

end SQLumDash.Scan
