import SQLumDash.Scan.IndexSeek
import SQLumDash.Scan.RowidScan

/-!
# Prefix scans of an index

What a prefix scan shows, by where the cursors stand when the leading one is chosen. With
an inserted match its cursor leads, with only a live one the shared cursor does, and
without a match nothing of the block can be shown as long as no deleted entry is.
-/

namespace SQLumDash.Scan

open OrderedCursor
open Probe (eq_of_before cut_ahead cut_ne_eq cut_sharp not_behind_of_eq cut_behind)

variable {α : Type*} [LinearOrder α]

/-- The scan of a prefix: `OP_SeekGE` or `OP_SeekLE` with the prefix, then stepping while the entry
still has it. -/
def prefixScan (moveto : MovetoUnpacked α) (ov : Overlay α) (record : Probe α) (opcode : Opcode)
    (c : BtCursor α) : Option (List (Visit α)) :=
  (rangeScan moveto ov (.idxKey record opcode.direction) opcode c).map
    (block fun x => record.cmp x = .eq)

section

variable (moveto : MovetoUnpacked α) (ov : Overlay α) (opcode : Opcode) (record : Probe α)
  (c : BtCursor α)

/-- A prefix scan shows exactly the entries of the view with the prefix. -/
def PrefixShown : Prop :=
  ∃ out, prefixScan moveto ov record opcode c = some out ∧
    Lists ov opcode.dir (fun x => record.cmp x = .eq) out

/-- The part of a prefix scan that follows the three seeks is right. -/
def ChoiceBlock (res resIns : Int) : Prop :=
  let chosen := chooseCursor moveto ov opcode c res resIns (hasMatch record ov.live)
    (hasMatch record ov.ins)
  BlockShows ov opcode.dir (opcode.stepsOff chosen.2)
    { chosen.1 with pCurDel := refetchDel moveto ov (record.cut opcode.dir) opcode chosen.1.pCurDel }
    fun x => record.cmp x = .eq

end

section Rows

variable {moveto : MovetoUnpacked α} {ov : Overlay α} {opcode : Opcode} {record : Probe α} {a i : α}
  {pCur pCurIns pCurDel : Option α} {state : CursorUse} {res resIns : Int}

/-- A prefix scan is right if what follows the three seeks is. -/
theorem prefixShown_iff {c : BtCursor α} : PrefixShown moveto ov opcode record c ↔
    ChoiceBlock moveto ov opcode record
      { (seekShared moveto ov (.idxKey record opcode.direction) opcode c).1 with
        pCurIns := moveto.land .ins ov.ins (record.cut opcode.dir) }
      (seekShared moveto ov (.idxKey record opcode.direction) opcode c).2.1
      ((record.cut opcode.dir).pRes (moveto.land .ins ov.ins (record.cut opcode.dir))) := by
  have seen := seekShared_eqSeen moveto ov record opcode c
  have cut : (SearchKey.idxKey record opcode.direction).probe = record.cut opcode.dir := by
    rw [Opcode.direction_eq]
    rfl
  unfold PrefixShown ChoiceBlock prefixScan rangeScan sqlite3BtreeMovetoUnpackedAll BlockShows
  dsimp only
  rw [seen, cut]
  constructor
  · rintro ⟨out, scanned, lists⟩
    obtain ⟨full, scanned', rfl⟩ := Option.map_eq_some_iff.1 scanned
    exact ⟨full, scanned', lists⟩
  · rintro ⟨full, scanned, lists⟩
    exact ⟨_, Option.map_eq_some_iff.2 ⟨full, scanned, rfl⟩, lists⟩

variable {d : Dir}

/-- From inside the block or past it, a match at or after an entry makes the entry one. -/
theorem initial_of_not_behind (notBehind : ¬ record.Behind d i) :
    ∀ x y, ¬ d.lt x i → record.cmp y = .eq → d.lt x y → record.cmp x = .eq := by
  intro x y notBefore same before
  exact eq_of_before (fun behind => notBehind (behind.of_not_lt notBefore)) same
    (Dir.asymm before)

/-- The same for entries past the near end of the block. -/
theorem initial_of_ahead :
    ∀ x y, (record.cut d).Ahead d x → record.cmp y = .eq → d.lt x y → record.cmp x = .eq :=
  fun _ _ ahead same before =>
    eq_of_before (cut_ahead.1 ahead) same (Dir.asymm before)

/-- What comes after an entry past the near end is past it too. -/
theorem upward_ahead : ∀ x y, (record.cut d).Ahead d x → d.lt x y → (record.cut d).Ahead d y :=
  fun _ _ ahead later => ahead.of_not_lt (Dir.asymm later)

/-- What a cursor moved over the key has in front of it lies past the key. -/
theorem Near.ahead_of_overtake {content t : Finset α} {x y : α}
    (near : Near content (record.cut d) d pCur res) (moved : overtake d t res pCur = some y)
    (inside : x ∈ content) (notBefore : ¬ d.lt x y) : (record.cut d).Ahead d x := by
  cases near with
  | nowhere _ =>
    unfold overtake at moved
    split_ifs at moved
    cases moved
  | on a _ same => exact absurd same cut_ne_eq
  | ahead a _ ahead _ =>
    have stays : ¬ d.sign * d.sign < 0 := by cases d <;> decide
    rw [overtake, if_neg stays] at moved
    cases moved
    exact ahead.of_not_lt notBefore
  | behind a _ _ nearest =>
    have moves : d.sign * -d.sign < 0 := by cases d <;> decide
    rw [overtake, if_pos moves] at moved
    have later := (step_eq_some_iff.1 (show step d t a = some y from moved)).1.2
    exact nearest x inside (Dir.lt_of_lt_of_not_lt later notBefore)

/-- An insertion cursor behind the block leads to what lies past its near end. -/
theorem leads_trans_behind (near : Near ov.live (record.cut d) d pCur res)
    (nearIns : Near ov.ins (record.cut d) d (some i) (-d.sign))
    (placedDel : ∀ x, pCurDel = some x → x ∈ ov.del)
    (ready : ∀ y, pCur = some y → ∀ x ∈ ov.del, ¬ d.lt x i → d.lt y x → NotPast d pCurDel x) :
    Leads ov d ((record.cut d).Ahead d)
      ⟨overtake d ov.shared res pCur, some i, pCurDel, .useTrans⟩ i := by
  obtain ⟨inserted, behind, nearest⟩ := nearIns.of_behind
  have afterI : ∀ {x}, (record.cut d).Ahead d x → d.lt i x := fun ahead =>
    behind.lt fun behind' => behind'.not_ahead ahead
  obtain ⟨overtaken, cleared⟩ := near.overtaken ready
  refine ⟨⟨fun y moved => (overtaken y moved).1, ?_, placedDel⟩, rfl, ?_, ?_, ?_, ?_,
    (by rintro ⟨⟩), ?_, fun y moved => (overtaken y moved).2, cleared⟩
  · rintro x ⟨⟩
    exact inserted
  · exact fun x inside => ⟨afterI, nearest x inside⟩
  · exact fun x _ ahead => Dir.asymm (afterI ahead)
  · exact fun x _ ahead => ⟨i, rfl, Dir.asymm (afterI ahead)⟩
  · exact fun x inside ahead => near.overtake_notPast cut_sharp Overlay.live_subset inside
      fun behind' => behind'.not_ahead ahead
  · exact fun _ y moved x inside notBefore _ => near.ahead_of_overtake moved inside notBefore

/-- A shared cursor behind the block leads to what lies past its near end. -/
theorem leads_shared_behind (near : Near ov.live (record.cut d) d (some a) (-d.sign))
    (nearIns : Near ov.ins (record.cut d) d pCurIns resIns)
    (placedDel : ∀ x, pCurDel = some x → x ∈ ov.del) (ready : DelReady ov d (some a) pCurDel) :
    Leads ov d ((record.cut d).Ahead d)
      ⟨some a, overtake d ov.ins resIns pCurIns, pCurDel, .useShared⟩ a := by
  obtain ⟨live, behind, nearest⟩ := near.of_behind
  have afterA : ∀ {x}, (record.cut d).Ahead d x → d.lt a x := fun ahead =>
    behind.lt fun behind' => behind'.not_ahead ahead
  refine ⟨⟨?_, ?_, placedDel⟩, rfl, ?_, ?_, ?_, ?_, ?_, (by rintro ⟨⟩), ?_, ?_⟩
  · rintro x ⟨⟩
    exact Overlay.live_subset live
  · intro y moved
    rcases overtake_cases moved with there | ⟨b, -, inside, -⟩
    · subst there
      exact nearIns.mem
    · exact inside
  · exact fun x inside => ⟨afterA, nearest x inside⟩
  · exact fun x _ ahead => Dir.asymm (afterA ahead)
  · exact fun x inside ahead => nearIns.overtake_notPast cut_sharp (Finset.Subset.refl _)
      inside fun behind' => behind'.not_ahead ahead
  · exact fun x _ ahead => ⟨a, rfl, Dir.asymm (afterA ahead)⟩
  · exact fun _ y moved x inside notBefore _ => nearIns.ahead_of_overtake moved inside notBefore
  · rintro y ⟨⟩ x deleted notBefore _
    exact ready a rfl x deleted (Dir.lt_of_not_lt_of_ne notBefore (Overlay.ne_of_del deleted live))
  · exact fun flag => absurd flag (Overlay.not_deleteAll live)

section

variable (seeks : opcode.Seeks) (near : Near ov.live (record.cut opcode.dir) opcode.dir pCur res)
  (placedDel : ∀ x, pCurDel = some x → x ∈ ov.del) (match_ : hasMatch record ov.ins)
  (ready : ∀ y, pCur = some y → ∀ x ∈ ov.del, ¬ opcode.dir.lt x i → opcode.dir.lt y x →
    NotPast opcode.dir (refetchDel moveto ov (record.cut opcode.dir) opcode pCurDel) x)

include seeks near placedDel match_ ready

/-- An inserted match, found from the near end of the block: right just when no match comes
before it. -/
theorem choice_inserted_ahead
    (nearIns : Near ov.ins (record.cut opcode.dir) opcode.dir (some i) opcode.dir.sign) :
    ChoiceBlock moveto ov opcode record ⟨pCur, some i, pCurDel, state⟩ res opcode.dir.sign ↔
      ∀ x, x ∈ ov.live ∨ x ∈ ov.ins → record.cmp x = .eq → ¬ opcode.dir.lt x i := by
  obtain ⟨inserted, ahead, -⟩ := nearIns.of_ahead
  unfold ChoiceBlock
  rw [chooseCursor_trans seeks (.inl (decide_eq_true match_))]
  dsimp only
  rw [Opcode.stepsOff_ahead seeks]
  have at_ := at_trans cut_sharp near (placed_refetch placedDel) inserted
    (fun behind => behind.not_ahead ahead) ready
  exact at_.scan.block_iff (initial_of_not_behind (cut_ahead.1 ahead))

/-- An inserted match, found from behind the block. -/
theorem choice_inserted_behind
    (nearIns : Near ov.ins (record.cut opcode.dir) opcode.dir (some i) (-opcode.dir.sign)) :
    ChoiceBlock moveto ov opcode record ⟨pCur, some i, pCurDel, state⟩ res (-opcode.dir.sign) := by
  unfold ChoiceBlock
  rw [chooseCursor_trans seeks (.inl (decide_eq_true match_))]
  dsimp only
  rw [Opcode.stepsOff_behind seeks]
  have leads := leads_trans_behind near nearIns (placed_refetch placedDel) ready
  refine ((leads.advances.scan upward_ahead).block_iff initial_of_ahead).2 fun x _ same => ?_
  exact cut_ahead.2 (not_behind_of_eq same)

end

/-- Neither source of a match has one. -/
theorem not_seen {P : Prop} [Decidable P] (unseen : ¬ P) (apart : res ≠ 0) :
    ¬ (decide P = true ∨ res = 0) := by simp [unseen, apart]

/-- Only live matches: right from either side of the near end of the block. -/
theorem choice_live_match (seeks : opcode.Seeks)
    (near : Near ov.live (record.cut opcode.dir) opcode.dir (some a) res)
    (nearIns : Near ov.ins (record.cut opcode.dir) opcode.dir pCurIns resIns)
    (placedDel : ∀ x, pCurDel = some x → x ∈ ov.del) (noneIns : ¬ hasMatch record ov.ins)
    (match_ : hasMatch record ov.live) (ready : DelReady ov opcode.dir (some a) pCurDel) :
    ChoiceBlock moveto ov opcode record ⟨some a, pCurIns, pCurDel, state⟩ res resIns := by
  unfold ChoiceBlock
  rw [chooseCursor_shared seeks (not_seen noneIns nearIns.cut_ne_zero)
    (.inl (decide_eq_true match_))]
  dsimp only
  have placedDel' : ∀ x, refetchDel moveto ov (record.cut opcode.dir) opcode pCurDel = some x →
      x ∈ ov.del := placed_refetch placedDel
  rcases near.sides near.cut_ne_zero with ⟨rfl, ahead⟩ | ⟨rfl, -⟩
  · rw [Opcode.stepsOff_ahead seeks]
    have at_ := at_shared cut_sharp nearIns placedDel' near.mem
      (fun behind => behind.not_ahead ahead) ready.refetch
    refine (at_.scan.block_iff (initial_of_not_behind (cut_ahead.1 ahead))).2 ?_
    rintro x (live | inserted) same
    · refine near.of_ahead.2.2 x live fun behind => ?_
      exact not_behind_of_eq same (cut_behind.1 behind)
    · exact absurd ⟨x, inserted, same⟩ noneIns
  · rw [Opcode.stepsOff_behind seeks]
    have leads := leads_shared_behind near nearIns placedDel' ready.refetch
    refine ((leads.advances.scan upward_ahead).block_iff initial_of_ahead).2 fun x _ same => ?_
    exact cut_ahead.2 (not_behind_of_eq same)

/-- The view has no match if neither part of it has one. -/
theorem noMatch_view (noneLive : ¬ hasMatch record ov.live) (noneIns : ¬ hasMatch record ov.ins) :
    ∀ x, x ∈ ov.live ∨ x ∈ ov.ins → ¬ record.cmp x = .eq := by
  rintro x (live | inserted) same
  · exact noneLive ⟨x, live, same⟩
  · exact noneIns ⟨x, inserted, same⟩

/-- Standing on an entry of the view a scan shows only the view, stepping off first or not. -/
theorem At.shows_some {c : BtCursor α} {off : Bool} (at_ : At ov d c a) :
    ∃ Q, ScanShows ov d off c Q := by
  cases off with
  | false => exact ⟨_, at_.scan⟩
  | true => exact ⟨_, at_.scan_off⟩

/-- Two cursors next to a missing key show only the view, whichever leads. -/
theorem sameSide_shows {probe : Probe α} (kept : ov.deleteAll = false)
    (near : Near ov.live probe opcode.dir (some a) res)
    (nearIns : Near ov.ins probe opcode.dir (some i) resIns) (seeks : opcode.Seeks)
    (apart : res ≠ 0) (apartIns : resIns ≠ 0) :
    let side := sqlite3BtreeMovetoSameSide ov opcode
      ⟨some a, some i, moveto.land .del ov.del (Probe.exact a), state⟩ res resIns
    ∃ Q, ScanShows ov opcode.dir (opcode.stepsOff side.2)
      { side.1 with pCurDel := refetchDel moveto ov probe opcode side.1.pCurDel } Q := by
  have placed : ∀ x, refetchDel moveto ov probe opcode
      (moveto.land .del ov.del (Probe.exact a)) = some x → x ∈ ov.del :=
    placed_refetch fun x => moveto.land_mem
  have ready : DelReady ov opcode.dir (some a) (refetchDel moveto ov probe opcode
      (moveto.land .del ov.del (Probe.exact a))) := DelReady.refetch ready_landed
  rcases near.sides apart with ⟨rfl, ahead⟩ | ⟨rfl, behind⟩ <;>
    rcases nearIns.sides apartIns with ⟨rfl, aheadIns⟩ | ⟨rfl, behindIns⟩
  · -- Both past the key.
    rw [sameSide_same rfl rfl]
    by_cases below : opcode.dir.sign < 0
    · simp only [below, iff_true]
      exact (at_last near.mem nearIns.mem placed ready).shows_some
    · have order : (opcode.dir.lt a i ↔ opcode.dir.sign < 0) ↔ ¬ opcode.dir.lt a i := by
        simp [below]
      simp only [order, ite_not]
      exact (at_first near.mem nearIns.mem placed ready ahead aheadIns near.of_ahead.2.2
        nearIns.of_ahead.2.2).shows_some
  · rw [sameSide_ins_behind rfl rfl sign_mul_neg_sign (by cases opcode.dir <;> decide)]
    cases moved : step opcode.dir ov.ins i with
    | none =>
      refine At.shows_some (a := a) (at_live near.mem (by rintro y ⟨⟩) placed ?_ ready)
      intro x inside later
      -- Nothing is inserted past the key.
      have laterI : opcode.dir.lt i x := behindIns.lt fun behind' =>
        behind'.not_ahead (ahead.of_not_lt (Dir.asymm later))
      exact absurd laterI (step_eq_none_iff.1 moved x inside)
    | some j =>
      exact (at_last near.mem (step_eq_some_iff.1 moved).1.1 placed ready).shows_some
  · rw [sameSide_shared_behind rfl rfl neg_sign_mul_sign sign_mul_neg_sign]
    have moved := Approaching.skip (Q := opcode.dir.lt a)
      (c := ⟨step opcode.dir ov.shared a, some i, moveto.land .del ov.del (Probe.exact a), state⟩)
      (approach_step kept (fun x => moveto.land_mem) (fun x _ => Iff.rfl) (ready_landed a rfl))
    generalize btreeSeekToExist ov opcode.dir
      ⟨step opcode.dir ov.shared a, some i, moveto.land .del ov.del (Probe.exact a), state⟩ = m
      at moved
    obtain ⟨pCur, pCurIns, pCurDel', state'⟩ := m
    obtain rfl : pCurIns = some i := moved.ins
    cases pCur with
    | none =>
      refine At.shows_some (a := i) (at_ins nearIns.mem (by rintro y ⟨⟩)
        (placed_refetch moved.del) ?_ (by rintro y ⟨⟩))
      intro x inside later
      have laterA : opcode.dir.lt a x := behind.lt fun behind' =>
        behind'.not_ahead (aheadIns.of_not_lt (Dir.asymm later))
      exact absurd (Finset.mem_filter.2 ⟨inside, laterA⟩) (first_eq_none_iff.1 moved.shared.symm x)
    | some b =>
      have live := (first_filter_mem moved.shared.symm).1
      have ready' : DelReady ov opcode.dir (some b) pCurDel' := moved.notPastDel
      exact (at_last live nearIns.mem (placed_refetch moved.del) ready'.refetch).shows_some
  · -- Both before the key.
    rw [sameSide_same rfl rfl]
    by_cases below : -opcode.dir.sign < 0
    · simp only [below, iff_true]
      exact (at_last near.mem nearIns.mem placed ready).shows_some
    · have order : (opcode.dir.lt a i ↔ -opcode.dir.sign < 0) ↔ ¬ opcode.dir.lt a i := by
        simp only [below, iff_false]
      simp only [order, ite_not, Opcode.stepsOff_behind seeks]
      have leads := leads_first near.mem nearIns.mem placed ready near.of_behind.2.2
        nearIns.of_behind.2.2 behind behindIns
      exact ⟨_, leads.advances.scan fun x y notBefore later past =>
        notBefore (Dir.trans later past)⟩

/-- Without a match nothing of the block is shown, as long as the deletion cursor of a shared
cursor that stands alone is right. -/
theorem choice_no_match (seeks : opcode.Seeks)
    (near : Near ov.live (record.cut opcode.dir) opcode.dir pCur res)
    (nearIns : Near ov.ins (record.cut opcode.dir) opcode.dir pCurIns resIns)
    (placedDel : ∀ x, pCurDel = some x → x ∈ ov.del) (noneLive : ¬ hasMatch record ov.live)
    (noneIns : ¬ hasMatch record ov.ins)
    (ready : pCurIns = none → DelReady ov opcode.dir pCur
      (refetchDel moveto ov (record.cut opcode.dir) opcode pCurDel)) :
    ChoiceBlock moveto ov opcode record ⟨pCur, pCurIns, pCurDel, state⟩ res resIns := by
  have noneView := noMatch_view noneLive noneIns
  have apart := near.cut_ne_zero
  have apartIns := nearIns.cut_ne_zero
  have nothing : ∀ {off : Bool} {c : BtCursor α}, (∃ Q, ScanShows ov opcode.dir off c Q) →
      BlockShows ov opcode.dir off c (fun x => record.cmp x = .eq) :=
    fun ⟨_, shows⟩ => shows.block_of_none noneView
  unfold ChoiceBlock
  rw [chooseCursor_apart seeks (not_seen noneIns apartIns) (not_seen noneLive apart)]
  refine nothing ?_
  cases pCur with
  | none =>
    cases near with
    | nowhere empty =>
      cases pCurIns with
      | none =>
        cases nearIns with
        | nowhere emptyIns =>
          refine ⟨fun _ => False, scan_nothing rfl rfl ?_⟩
          simp
      | some i =>
        refine At.shows_some (a := i) (at_ins nearIns.mem (by rintro y ⟨⟩)
          (placed_refetch placedDel) ?_ (by rintro y ⟨⟩))
        exact fun x live => absurd empty (Finset.ne_empty_of_mem live)
  | some a =>
    cases pCurIns with
    | none =>
      cases nearIns with
      | nowhere emptyIns =>
        refine At.shows_some (a := a) (at_live near.mem (by rintro y ⟨⟩)
          (placed_refetch placedDel) ?_ (ready rfl))
        exact fun x inserted => absurd emptyIns (Finset.ne_empty_of_mem inserted)
    | some i =>
      exact sameSide_shows (Overlay.kept_of_live near.mem) near nearIns seeks apart apartIns

end Rows

section LaterLead

variable {ov : Overlay α} {opcode : Opcode} {record : Probe α} {c : BtCursor α}

/-- Both trees have matches and a live one comes before the inserted ones. -/
def LiveFirst (ov : Overlay α) (d : Dir) (record : Probe α) : Prop :=
  hasMatch record ov.ins ∧
    ∃ l ∈ ov.live, record.cmp l = .eq ∧ ∀ i ∈ ov.ins, record.cmp i = .eq → d.lt l i

/-- The insertion cursor leads from the first match it has, so nothing comes before it unless
a live match does. -/
theorem not_lt_of_not_liveFirst {d : Dir} {i : α} (safe : ¬ LiveFirst ov d record)
    (match_ : hasMatch record ov.ins) (nearIns : Near ov.ins (record.cut d) d (some i) d.sign) :
    ∀ x, x ∈ ov.live ∨ x ∈ ov.ins → record.cmp x = .eq → ¬ d.lt x i := by
  obtain ⟨-, -, nearest⟩ := nearIns.of_ahead
  have first : ∀ j ∈ ov.ins, record.cmp j = .eq → ¬ d.lt j i := fun j inside same =>
    nearest j inside fun behind => not_behind_of_eq same (cut_behind.1 behind)
  rintro x (live | inserted) same before
  · refine safe ⟨match_, x, live, same, fun j inside sameJ => ?_⟩
    exact Dir.lt_of_lt_of_not_lt before (first j inside sameJ)
  · exact first x inserted same before

/-- The first entry past the near end of a block that is not empty is a match. -/
theorem Near.match_of_ahead {content : Finset α} {d : Dir} {i : α}
    (near : Near content (record.cut d) d (some i) d.sign) (match_ : hasMatch record content) :
    record.cmp i = .eq := by
  obtain ⟨m, inside, same⟩ := match_
  obtain ⟨-, ahead, nearest⟩ := near.of_ahead
  refine eq_of_before (cut_ahead.1 ahead) same ?_
  exact nearest m inside fun behind => not_behind_of_eq same (cut_behind.1 behind)

/-- With the deletion cursor ready and no live match before the inserted ones, the choice of the
leading cursor is right. -/
theorem choice_ready {moveto : MovetoUnpacked α} {pCur pCurIns pCurDel : Option α}
    {state : CursorUse} {res resIns : Int} (seeks : opcode.Seeks)
    (near : Near ov.live (record.cut opcode.dir) opcode.dir pCur res)
    (nearIns : Near ov.ins (record.cut opcode.dir) opcode.dir pCurIns resIns)
    (placedDel : ∀ x, pCurDel = some x → x ∈ ov.del) (ready : DelReady ov opcode.dir pCur pCurDel)
    (safe : ¬ LiveFirst ov opcode.dir record) :
    ChoiceBlock moveto ov opcode record ⟨pCur, pCurIns, pCurDel, state⟩ res resIns := by
  by_cases matchIns : hasMatch record ov.ins
  · have refetched : ∀ (i y : α), pCur = some y → ∀ x ∈ ov.del, ¬ opcode.dir.lt x i →
        opcode.dir.lt y x →
        NotPast opcode.dir (refetchDel moveto ov (record.cut opcode.dir) opcode pCurDel) x :=
      fun _ y there x deleted _ later => notPast_refetch (ready y there x deleted later)
    cases pCurIns with
    | none =>
      cases nearIns with
      | nowhere noneIns => simp [hasMatch, noneIns] at matchIns
    | some i =>
      rcases nearIns.sides nearIns.cut_ne_zero with ⟨rfl, -⟩ | ⟨rfl, -⟩
      · exact (choice_inserted_ahead seeks near placedDel matchIns (refetched i) nearIns).2
          (not_lt_of_not_liveFirst safe matchIns nearIns)
      · exact choice_inserted_behind seeks near placedDel matchIns (refetched i) nearIns
  by_cases matchLive : hasMatch record ov.live
  · cases pCur with
    | none =>
      cases near with
      | nowhere noneLive => simp [hasMatch, noneLive] at matchLive
    | some a => exact choice_live_match seeks near nearIns placedDel matchIns matchLive ready
  exact choice_no_match seeks near nearIns placedDel matchLive matchIns fun _ => ready.refetch

/-- An inserted match makes its cursor lead from the near end of the block. -/
theorem near_inserted_match {d : Dir} (side : Tree → Dir) (prefers : side .ins = d)
    (match_ : hasMatch record ov.ins) :
    ∃ i, (MovetoUnpacked.ofSide side).land .ins ov.ins (record.cut d) = some i ∧
      Near ov.ins (record.cut d) d (some i) d.sign ∧ (record.cut d).pRes (some i) = d.sign ∧
      record.cmp i = .eq := by
  obtain ⟨m, inside, same⟩ := match_
  subst prefers
  have ahead := cut_ahead.2 (not_behind_of_eq (d := side .ins) same)
  obtain ⟨i, landed, near, reported⟩ := ofSide_near side .ins (fun x _ => cut_ne_eq) inside
    ahead
  exact ⟨i, landed, near, reported, near.match_of_ahead ⟨m, inside, same⟩⟩

/-- A live match before the inserted ones is lost. -/
theorem liveFirst_fails (opcode : Opcode) (seeks : opcode.Seeks)
    (fails : LiveFirst ov opcode.dir record) :
    ∃ moveto, ¬ PrefixShown moveto ov opcode record c := by
  obtain ⟨match_, l, live, same, before⟩ := fails
  refine ⟨.ofSide fun _ => opcode.dir, ?_⟩
  obtain ⟨i, landed, near, reported, sameI⟩ :=
    near_inserted_match (fun _ => opcode.dir) rfl match_
  rw [prefixShown_iff, landed, reported]
  unfold ChoiceBlock
  rw [chooseCursor_trans seeks (.inl (decide_eq_true match_))]
  dsimp only
  rw [Opcode.stepsOff_ahead seeks]
  exact not_block_of_lost (v := ⟨.useTrans, i⟩) rfl sameI (.inl live) same (before i near.mem sameI)

end LaterLead

end SQLumDash.Scan
