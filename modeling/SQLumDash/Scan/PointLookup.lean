import SQLumDash.Scan.IndexSeek
import SQLumDash.Scan.MachineScan
import SQLumDash.Scan.ScanFaults

/-!
# Point lookups

A lookup seeks a rowid, or a prefix of an index with a `default_rc` of zero, and asks only whether
the seek ended on a match. In the shared tree the seek may end on any of the entries that match.
When that one is deleted the lookup leaves it and does not look at the other matches again.

A rowid has no other match, but on the way from a deleted entry the rowids are compared by their
differences in 64 bits, and the lookup ends in `SQLITE_CORRUPT` where the check of the rowid order
meets one that does not fit.
-/

namespace SQLumDash.Scan

open OrderedCursor

variable {α : Type*} [LinearOrder α]

/-- The entries a lookup is for. -/
def SearchKey.Wants : SearchKey α → α → Prop
  | .intKey key, x => x = key
  | .idxKey record _, x => record.cmp x = .eq

/-- The keys of lookups: rowids, and index keys without a `default_rc`. -/
def SearchKey.IsPoint : SearchKey α → Prop
  | .intKey _ => True
  | .idxKey _ default_rc => default_rc = 0

/-- The answer is zero exactly when the view has an entry that is wanted, and then the cursor stands
on one. -/
def AnswersRight (ov : Overlay α) (key : SearchKey α) (sought : BtCursor α × Int) : Prop :=
  (sought.2 = 0 ↔ ∃ x ∈ ov.view, key.Wants x) ∧
    (sought.2 = 0 → ∃ visit, sought.1.current = some visit ∧ ov.Shows visit ∧ key.Wants visit.key)

/-- A lookup answers right. -/
def LookupRight (moveto : MovetoUnpacked α) (ov : Overlay α) (key : SearchKey α)
    (c : BtCursor α) : Prop :=
  let sought := sqlite3BtreeMovetoUnpackedAll moveto ov key .other c
  AnswersRight ov key (sought.1, sought.2.1)

/-- The seek in the shared tree ends on a deleted entry although a live one matches, and no
inserted one does. -/
structure Overlooks (moveto : MovetoUnpacked α) (ov : Overlay α) (record : Probe α) : Prop where
  live : ∃ x ∈ ov.live, record.cmp x = .eq
  ins : ∀ x ∈ ov.ins, record.cmp x ≠ .eq
  deleted : ∃ x ∈ ov.del, moveto.land .shared ov.shared (record.withDefault 0) = some x

section

variable {moveto : MovetoUnpacked α} {ov : Overlay α} {key : SearchKey α} {c : BtCursor α}

/-- A `default_rc` of zero leaves the comparison as it is. -/
theorem Probe.withDefault_zero (record : Probe α) (x : α) :
    (record.withDefault 0).cmp x = record.cmp x := by
  change (record.cmp x).then .eq = record.cmp x
  cases record.cmp x <;> rfl

/-- A lookup wants the entries that match. -/
theorem SearchKey.IsPoint.wants_iff (point : key.IsPoint) (x : α) :
    key.Wants x ↔ key.probe.cmp x = .eq := by
  cases key with
  | intKey rowid => exact Probe.exact_eq.symm
  | idxKey record default_rc =>
    obtain rfl : default_rc = 0 := point
    rw [SearchKey.probe, Probe.withDefault_zero]
    rfl

/-- A seek that reports no match did not land on one. -/
theorem pRes_eq_zero_iff {content : Finset α} {probe : Probe α} {landed : Option α}
    (lands : Landed content probe landed) :
    probe.pRes landed = 0 ↔ ∃ x ∈ content, probe.cmp x = .eq :=
  (lands.near (d := .forward)).res_eq_zero

/-- No match is counted where none is. -/
theorem SearchKey.IsPoint.eqSeen_of_none (point : key.IsPoint) {content : Finset α}
    (none : ∀ x ∈ content, ¬ key.Wants x) : key.eqSeenIns content = false := by
  cases key with
  | intKey rowid => rfl
  | idxKey record default_rc =>
    exact decide_eq_false fun ⟨x, inside, same⟩ => none x inside same

/-- A lookup counts nothing: a match in the shared tree is taken as seen. -/
theorem SearchKey.IsPoint.seekEqSeen_eq (point : key.IsPoint) (opcode : Opcode)
    (landed pCurDel : Option α) :
    (seekEqSeen moveto ov key opcode landed pCurDel).1 = key.eqSeenIns ov.shared := by
  cases key with
  | intKey rowid => rfl
  | idxKey record default_rc =>
    obtain rfl : default_rc = 0 := point
    simp [seekEqSeen, SearchKey.eqSeenIns]

/-- And it is forgotten when the entry landed on is deleted. -/
theorem SearchKey.IsPoint.keepsEqSeen_eq (point : key.IsPoint) (shared : Finset α) :
    key.keepsEqSeen shared = false := by
  cases key with
  | intKey rowid => rfl
  | idxKey record default_rc =>
    obtain rfl : default_rc = 0 := point
    simp [SearchKey.keepsEqSeen]

/-- The ways the search of the shared tree can end in a lookup. -/
inductive SharedLookup (moveto : MovetoUnpacked α) (ov : Overlay α) (key : SearchKey α) :
    BtCursor α × Int × Bool → Prop
  /-- On a live match. -/
  | found (x : α) (live : x ∈ ov.live) (wanted : key.Wants x)
      (landed : moveto.land .shared ov.shared key.probe = some x) (c : BtCursor α)
      (there : c.pCur = some x) (eqSeen : Bool) : SharedLookup moveto ov key (c, 0, eqSeen)
  /-- Not on a match: the entry landed on is deleted or none matches. -/
  | missed (c : BtCursor α) (res : Int) (apart : res ≠ 0)
      (why : (∃ x ∈ ov.del, moveto.land .shared ov.shared key.probe = some x) ∨
        ∀ x ∈ ov.live, ¬ key.Wants x) : SharedLookup moveto ov key (c, res, false)

namespace SharedLookup

variable {result : BtCursor α × Int × Bool}

section

variable (searched : SharedLookup moveto ov key result)

include searched

/-- An answer of zero comes from a live match. -/
theorem of_zero (zero : result.2.1 = 0) :
    ∃ x ∈ ov.live, key.Wants x ∧ moveto.land .shared ov.shared key.probe = some x ∧
      result.1.pCur = some x := by
  cases searched with
  | found x live wanted landed c there eqSeen => exact ⟨x, live, wanted, landed, there⟩
  | missed c res apart why => exact absurd zero apart

/-- Any other one comes from a deleted entry, or there is no live match. -/
theorem of_apart (apart : result.2.1 ≠ 0) :
    (∃ x ∈ ov.del, moveto.land .shared ov.shared key.probe = some x) ∨
      ∀ x ∈ ov.live, ¬ key.Wants x := by
  cases searched with
  | found => exact absurd rfl apart
  | missed c res apart why => exact why

/-- Where a match is seen the answer is zero. -/
theorem zero_of_seen (seen : result.2.2 = true) : result.2.1 = 0 := by
  cases searched with
  | found => rfl
  | missed => cases seen

end

end SharedLookup

/-- The check of the entry landed on: it is deleted and left, or the cursor stays. -/
theorem settleShared_cases (moveto : MovetoUnpacked α) (ov : Overlay α) (probe : Probe α)
    (c : BtCursor α) :
    (∃ x ∈ ov.del, c.pCur = some x ∧ (settleShared moveto ov probe .other c).2.1 ≠ 0 ∧
      (settleShared moveto ov probe .other c).2.2 = true) ∨
    (∀ x, c.pCur = some x → x ∉ ov.del) ∧ (settleShared moveto ov probe .other c).1.pCur = c.pCur ∧
      (settleShared moveto ov probe .other c).2 = (probe.pRes c.pCur, false) := by
  unfold settleShared btreeIsDeleted
  cases there : c.pCur with
  | none => exact .inr ⟨(by rintro x ⟨⟩), there, rfl⟩
  | some x =>
    have reported := pRes_exact_eq_zero (moveto.lands .del ov.del (Probe.exact x))
    by_cases deleted : x ∈ ov.del
    · refine .inl ⟨x, deleted, rfl, ?_⟩
      dsimp only
      rw [if_pos ⟨reported.2 deleted, by decide⟩]
      refine ⟨?_, rfl⟩
      unfold leaveDeleted
      dsimp only
      split <;> simp
    · refine .inr ⟨fun y same => ?_, ?_⟩
      · cases same
        exact deleted
      · dsimp only
        rw [if_neg fun both => deleted (reported.1 both.1)]
        exact ⟨rfl, rfl⟩

/-- The search of the shared tree ends in one of these ways. -/
theorem seekShared_lookup (point : key.IsPoint) (moveto : MovetoUnpacked α) (ov : Overlay α)
    (c : BtCursor α) : SharedLookup moveto ov key (seekShared moveto ov key .other c) := by
  have lands := moveto.lands .shared ov.shared key.probe
  unfold seekShared
  dsimp only
  cases flag : ov.deleteAll with
  | true =>
    rw [if_pos rfl]
    refine .missed _ (-1) (by decide) (.inr fun x live => ?_)
    simp [Overlay.live, flag] at live
  | false =>
    rw [if_neg (by decide), point.seekEqSeen_eq, point.keepsEqSeen_eq, Bool.or_false]
    generalize (seekEqSeen moveto ov key .other _ c.pCurDel).2 = pCurDel
    have settled := settleShared_cases moveto ov key.probe
      { c with pCur := moveto.land .shared ov.shared key.probe, pCurDel := pCurDel }
    generalize settleShared moveto ov key.probe .other _ = result at settled ⊢
    obtain ⟨c', res, left⟩ := result
    rcases settled with ⟨x, deleted, landed, apart, rfl⟩ | ⟨kept, stays, same⟩
    · rw [Bool.not_true, Bool.and_false]
      exact .missed c' res apart (.inl ⟨x, deleted, landed⟩)
    · obtain ⟨rfl, rfl⟩ := Prod.mk.inj same
      rw [Bool.not_false, Bool.and_true]
      by_cases matched : ∃ x ∈ ov.shared, key.probe.cmp x = .eq
      · obtain ⟨y, inside, wanted⟩ := matched
        obtain ⟨x, landed, wanted⟩ := lands.match inside wanted
        have whole := landed
        rw [landed] at lands stays kept ⊢
        have zero : key.probe.pRes (some x) = 0 := (pRes_eq_zero_iff lands).2 ⟨x, lands.mem, wanted⟩
        rw [zero]
        exact .found x ((Overlay.mem_live flag).2 ⟨lands.mem, kept x rfl⟩)
          ((point.wants_iff x).2 wanted) whole c' stays _
      · have none : ∀ x ∈ ov.shared, ¬ key.Wants x := fun x inside wanted =>
          matched ⟨x, inside, (point.wants_iff x).1 wanted⟩
        rw [point.eqSeen_of_none none]
        exact .missed c' _ (fun zero => matched ((pRes_eq_zero_iff lands).1 zero))
          (.inr fun x live => none x (Overlay.live_subset live))

/-- Without a direction to look in, an inserted match comes first and a shared one second. -/
theorem chooseCursor_other (moveto : MovetoUnpacked α) (ov : Overlay α) (c : BtCursor α)
    (res resIns : Int) (eqSeen eqSeenIns : Bool)
    (seenIns : eqSeenIns = true → resIns = 0) (seen : eqSeen = true → res = 0) :
    (resIns = 0 ∧ chooseCursor moveto ov .other c res resIns eqSeen eqSeenIns =
      ({ c with state := .useTrans }, 0)) ∨
    (resIns ≠ 0 ∧ res = 0 ∧ chooseCursor moveto ov .other c res resIns eqSeen eqSeenIns =
      ({ c with state := .useShared }, 0)) ∨
    (resIns ≠ 0 ∧ res ≠ 0 ∧
      (chooseCursor moveto ov .other c res resIns eqSeen eqSeenIns).2 ≠ 0) := by
  unfold chooseCursor
  by_cases inserted : resIns = 0
  · refine .inl ⟨inserted, ?_⟩
    simp [inserted, Opcode.seeksUp, Opcode.seeksDown]
  · have unseenIns : eqSeenIns = false := Bool.eq_false_iff.2 fun yes => inserted (seenIns yes)
    by_cases shared : res = 0
    · refine .inr (.inl ⟨inserted, shared, ?_⟩)
      simp [inserted, shared, unseenIns, Opcode.seeksUp, Opcode.seeksDown]
    · have unseen : eqSeen = false := Bool.eq_false_iff.2 fun yes => shared (seen yes)
      refine .inr (.inr ⟨inserted, shared, ?_⟩)
      rw [if_neg (by simp [inserted, shared, unseen, unseenIns])]
      cases c.pCur with
      | none => exact inserted
      | some x =>
        cases c.pCurIns with
        | none => exact shared
        | some y => simpa [Opcode.seeksUp, Opcode.seeksDown] using shared

/-- The ways a lookup can end. -/
inductive LookupEnd (moveto : MovetoUnpacked α) (ov : Overlay α) (key : SearchKey α) :
    BtCursor α × Int → Prop
  /-- On an inserted match. -/
  | inserted (x : α) (inside : x ∈ ov.ins) (wanted : key.Wants x) (c : BtCursor α)
      (stands : c.current = some ⟨.useTrans, x⟩) : LookupEnd moveto ov key (c, 0)
  /-- On a live match, when none is inserted. -/
  | shared (x : α) (live : x ∈ ov.live) (wanted : key.Wants x)
      (landed : moveto.land .shared ov.shared key.probe = some x) (c : BtCursor α)
      (stands : c.current = some ⟨.useShared, x⟩) : LookupEnd moveto ov key (c, 0)
  /-- Not on a match. -/
  | missed (none : ∀ x ∈ ov.ins, ¬ key.Wants x)
      (why : (∃ x ∈ ov.del, moveto.land .shared ov.shared key.probe = some x) ∨
        ∀ x ∈ ov.live, ¬ key.Wants x) (c : BtCursor α) (res : Int) (apart : res ≠ 0) :
      LookupEnd moveto ov key (c, res)

/-- After the search of the shared tree the insertion tree is searched and a cursor chosen. -/
theorem SharedLookup.ends (point : key.IsPoint) {result : BtCursor α × Int × Bool}
    (searched : SharedLookup moveto ov key result) :
    LookupEnd moveto ov key (chooseCursor moveto ov .other
      { result.1 with pCurIns := moveto.land .ins ov.ins key.probe } result.2.1
      (key.probe.pRes (moveto.land .ins ov.ins key.probe)) result.2.2 (key.eqSeenIns ov.ins)) := by
  have landsIns := moveto.lands .ins ov.ins key.probe
  have reportedIns : key.probe.pRes (moveto.land .ins ov.ins key.probe) = 0 ↔
      ∃ x ∈ ov.ins, key.Wants x := by
    simp only [pRes_eq_zero_iff landsIns, point.wants_iff]
  have seenIns : key.eqSeenIns ov.ins = true →
      key.probe.pRes (moveto.land .ins ov.ins key.probe) = 0 := by
    intro seen
    by_contra apart
    have none : ∀ x ∈ ov.ins, ¬ key.Wants x := fun x inside wanted =>
      apart (reportedIns.2 ⟨x, inside, wanted⟩)
    rw [point.eqSeen_of_none none] at seen
    cases seen
  rcases chooseCursor_other moveto ov
    { result.1 with pCurIns := moveto.land .ins ov.ins key.probe } result.2.1
    (key.probe.pRes (moveto.land .ins ov.ins key.probe)) result.2.2 (key.eqSeenIns ov.ins) seenIns
    searched.zero_of_seen with ⟨zeroIns, ends⟩ | ⟨apartIns, zero, ends⟩ | ⟨apartIns, apart, ends⟩
  · obtain ⟨y, insideY, wantedY⟩ := reportedIns.1 zeroIns
    obtain ⟨x, landed, same⟩ := landsIns.match insideY ((point.wants_iff y).1 wantedY)
    rw [ends]
    exact .inserted x (moveto.land_mem landed) ((point.wants_iff x).2 same) _
      (congrArg (Option.map (Visit.mk .useTrans)) landed)
  · obtain ⟨x, live, wanted, landed, there⟩ := searched.of_zero zero
    rw [ends]
    exact .shared x live wanted landed _ (congrArg (Option.map (Visit.mk .useShared)) there)
  · exact .missed (fun x inside wanted => apartIns (reportedIns.2 ⟨x, inside, wanted⟩))
      (searched.of_apart apart) _ _ ends

/-- An answer is right unless the search of the shared tree ends on a deleted entry although there
is a live match, and none is inserted. -/
theorem LookupEnd.right_iff {sought : BtCursor α × Int} (ended : LookupEnd moveto ov key sought) :
    AnswersRight ov key sought ↔
      ((∃ x ∈ ov.live, key.Wants x) → (∀ x ∈ ov.ins, ¬ key.Wants x) →
        ∀ x ∈ ov.del, moveto.land .shared ov.shared key.probe ≠ some x) := by
  have right : ∀ {c : BtCursor α} visit, ov.Shows visit → key.Wants visit.key →
      c.current = some visit → AnswersRight ov key (c, 0) := by
    intro c visit shown wanted stands
    have inView : visit.key ∈ ov.view := Overlay.mem_view.2 shown.mem
    exact ⟨iff_of_true rfl ⟨visit.key, inView, wanted⟩, fun _ => ⟨visit, stands, shown, wanted⟩⟩
  cases ended with
  | inserted x inside wanted c stands =>
    exact iff_of_true (right ⟨.useTrans, x⟩ inside wanted stands) fun _ none =>
      absurd wanted (none x inside)
  | shared x live wanted landed c stands =>
    refine iff_of_true (right ⟨.useShared, x⟩ live wanted stands) fun _ _ y deleted other => ?_
    rw [landed] at other
    cases other
    exact Overlay.not_mem_del_of_live live deleted
  | missed none why c res apart =>
    have nowhere : AnswersRight ov key (c, res) ↔ ¬ ∃ x ∈ ov.live, key.Wants x := by
      constructor
      · rintro ⟨answer, -⟩ ⟨x, live, wanted⟩
        exact apart (answer.2 ⟨x, Overlay.mem_view.2 (.inl live), wanted⟩)
      · intro noLive
        refine ⟨iff_of_false apart ?_, fun zero => absurd zero apart⟩
        rintro ⟨x, inView, wanted⟩
        rcases Overlay.mem_view.1 inView with live | inside
        · exact noLive ⟨x, live, wanted⟩
        · exact none x inside wanted
    rw [nowhere]
    constructor
    · exact fun noLive live => absurd live noLive
    · rintro hidden live
      rcases why with ⟨x, deleted, landed⟩ | noLive
      · exact hidden live none x deleted landed
      · obtain ⟨x, live, wanted⟩ := live
        exact noLive x live wanted

/-- The lookup of an index key is right if and only if the search of the shared tree does not
overlook a match. -/
theorem indexLookup_right_iff (moveto : MovetoUnpacked α) (ov : Overlay α) (c : BtCursor α)
    (record : Probe α) :
    LookupRight moveto ov (.idxKey record 0) c ↔ ¬ Overlooks moveto ov record := by
  have point : (SearchKey.idxKey record 0).IsPoint := rfl
  have ended := (seekShared_lookup point moveto ov c).ends point
  refine ended.right_iff.trans ⟨fun right overlooks => ?_, fun sees live ins x deleted landed => ?_⟩
  · obtain ⟨x, deleted, landed⟩ := overlooks.deleted
    exact right overlooks.live overlooks.ins x deleted landed
  · exact sees ⟨live, ins, x, deleted, landed⟩

end

section Rowids

variable (moveto : MovetoUnpacked Rowid) (ov : Overlay Rowid)

/-- `leaveDeleted` with the machine's comparisons; nothing for `SQLITE_CORRUPT`. -/
def leaveDeletedI64 (probe : Probe Rowid) (c : BtCursor Rowid) : Option (BtCursor Rowid × Int) := do
  let forward ← btreeSeekToExistI64 ov .forward
    { c with pCur := advance .forward ov.shared c.pCur }
  if forward.pCur.isSome then
    some (forward, 1)
  else do
    let again := moveto.land .shared ov.shared probe
    let backward ← btreeSeekToExistI64 ov .backward
      { forward with pCur := advance .backward ov.shared again }
    some (backward, -1)

/-- The part of `sqlite3BtreeMovetoUnpackedAll` up to the seek in the insertion tree, for a rowid. -/
def seekSharedI64 (rowid : Rowid) (c : BtCursor Rowid) : Option (BtCursor Rowid × Int) :=
  let probe := Probe.exact rowid
  let c := { c with pCur := moveto.land .shared ov.shared probe }
  if ov.deleteAll then
    some ({ c with pCur := none }, -1)
  else
    let checked := btreeIsDeleted moveto ov c
    if checked.2 = 0 then leaveDeletedI64 moveto ov probe checked.1
    else some (checked.1, probe.pRes c.pCur)

/-- `sqlite3BtreeMovetoUnpackedAll` for `OP_NotExists` on a rowid table: the cursor and `*pRes`, or
nothing for `SQLITE_CORRUPT`. The choice of the cursor compares no rowids for this opcode. -/
def sqlite3BtreeMovetoUnpackedAllI64 (rowid : Rowid) (c : BtCursor Rowid) :
    Option (BtCursor Rowid × Int) := do
  let probe := Probe.exact rowid
  let shared ← seekSharedI64 moveto ov rowid c
  let landedIns := moveto.land .ins ov.ins probe
  some (chooseCursor moveto ov .other { shared.1 with pCurIns := landedIns } shared.2
    (probe.pRes landedIns) false false)

/-- The lookup of a rowid ends without `SQLITE_CORRUPT` and answers right. -/
def RowidLookupRight (rowid : Rowid) (c : BtCursor Rowid) : Prop :=
  ∃ sought, sqlite3BtreeMovetoUnpackedAllI64 moveto ov rowid c = some sought ∧
    AnswersRight ov (.intKey rowid) sought

/-- The differences taken where the shared cursor goes to `z` while the deletion cursor stands on
`x`. If the first one does not fit, no other is taken. -/
def SkipFits (d : Dir) (x z : Rowid) : Prop := Fits z x → RunFits d ov.shared ov.del z

/-- All differences that are checked on the way from the deleted entry `x` fit: forward, and
backward where no live entry comes after it. -/
structure LeaveFits (x : Rowid) : Prop where
  forward : ∀ y, step .forward ov.shared x = some y → SkipFits ov .forward x y
  backward : (∀ y, step .forward ov.shared x = some y → Fits y x) → (∀ y ∈ ov.live, ¬ x < y) →
    ∀ w z, first .backward ov.shared = some w → step .backward ov.shared x = some z →
      SkipFits ov .backward w z

/-- The differences checked in the lookup of a rowid fit: there are none unless the search of the
shared tree ends on a deleted entry. -/
def LookupFits (rowid : Rowid) : Prop :=
  ov.deleteAll = false → ∀ x ∈ ov.del,
    moveto.land .shared ov.shared (Probe.exact rowid) = some x → LeaveFits ov x

variable {moveto} {ov} {d : Dir} {x z : Rowid}

/-- From nowhere nothing is skipped. -/
theorem btreeSeekToExistI64_nowhere (ov : Overlay Rowid) (d : Dir) {c : BtCursor Rowid}
    (nowhere : c.pCur = none) :
    btreeSeekToExistI64 ov d c = some c := by
  obtain ⟨pCur, pCurIns, pCurDel, state⟩ := c
  subst nowhere
  rfl

/-- Skipping from an entry, with the deletion cursor on an earlier one. -/
theorem btreeSeekToExistI64_cases {c : BtCursor Rowid} (there : c.pCur = some z)
    (member : z ∈ ov.shared) (placed : c.pCurDel = some x) (deleted : x ∈ ov.del)
    (behind : d.lt x z) :
    (btreeSeekToExistI64 ov d c = none ∧ ¬ SkipFits ov d x z) ∨
      SkipFits ov d x z ∧ ∃ c', btreeSeekToExistI64 ov d c = some c' ∧
        ((c'.pCur.isSome = true ∧ (Fits z x → ∃ y ∈ ov.shared, y ∉ ov.del ∧ ¬ d.lt y z)) ∨
          c'.pCur = none ∧ Fits z x ∧ (∀ y ∈ ov.shared, y ∉ ov.del → d.lt y z) ∧
            ∃ w ∈ ov.del, c'.pCurDel = some w ∧ step d ov.shared w = none) := by
  have aheadShared := ahead_le_card (d := d) (t := ov.shared) (some z)
  have aheadDel := ahead_le_card (d := d) (t := ov.del) (some x)
  have caught := seekToExistLoopI64_catches ov.del_subset member
    (ov.shared.card + ov.del.card + 1) deleted behind (by omega)
  have moves : btreeSeekToExistI64 ov d c = (seekToExistLoopI64 d ov.shared ov.del
      (ov.shared.card + ov.del.card + 1) z.1 (some z) (some x)).bind fun moved =>
        some { c with pCur := moved.1, pCurDel := moved.2 } := by
    unfold btreeSeekToExistI64
    rw [there, placed]
    rfl
  rw [moves]
  generalize seekToExistLoopI64 d ov.shared ov.del (ov.shared.card + ov.del.card + 1) z.1 (some z)
    (some x) = result at caught
  rcases caught with ⟨wide, rfl⟩ | ⟨fits, outcome⟩
  · exact .inr ⟨fun fits => absurd fits wide, _, rfl, .inl ⟨rfl, fun fits => absurd fits wide⟩⟩
  · cases outcome with
    | corrupt far => exact .inl ⟨rfl, fun skip => far (skip fits)⟩
    | found close pCurDel within settled ended =>
      refine .inr ⟨fun _ => close, _, rfl, ?_⟩
      cases found : first d ((ov.shared \ ov.del).filter fun y => ¬ d.lt y z) with
      | none =>
        obtain ⟨w, inDel, stays, last⟩ := ended found
        refine .inr ⟨rfl, fits, fun y inside kept => ?_, w, inDel, stays, last⟩
        by_contra notBefore
        exact first_eq_none_iff.1 found y
          (Finset.mem_filter.2 ⟨Finset.mem_sdiff.2 ⟨inside, kept⟩, notBefore⟩)
      | some y =>
        obtain ⟨live, notBefore⟩ := Finset.mem_filter.1 (first_eq_some_iff.1 found).1
        obtain ⟨inside, kept⟩ := Finset.mem_sdiff.1 live
        exact .inl ⟨rfl, fun _ => ⟨y, inside, kept, notBefore⟩⟩

/-- Nothing is left forward, and the way goes back from the last entry. -/
theorem leaveBackwardI64_cases {forward : BtCursor Rowid} {w : Rowid} (deleted : x ∈ ov.del)
    (fits : ∀ y, step .forward ov.shared x = some y → SkipFits ov .forward x y ∧ Fits y x)
    (noLive : ∀ y ∈ ov.live, ¬ x < y) (inDel : w ∈ ov.del)
    (last : step .forward ov.shared w = none) (stays : forward.pCurDel = some w) :
    let result := (btreeSeekToExistI64 ov .backward
      { forward with pCur := advance .backward ov.shared (some x) }).bind fun backward =>
        some (backward, (-1 : Int))
    (result = none ∧ ¬ LeaveFits ov x) ∨
      LeaveFits ov x ∧ ∃ c' res, result = some (c', res) ∧ res ≠ 0 := by
  have lastOf : first .backward ov.shared = some w := by
    refine first_eq_some_iff.2 ⟨ov.del_subset inDel, fun y inside => ?_⟩
    exact step_eq_none_iff.1 last y inside
  cases moved : step .backward ov.shared x with
  | none =>
    rw [btreeSeekToExistI64_nowhere ov .backward
      (show advance .backward ov.shared (some x) = none from moved)]
    refine .inr ⟨⟨fun y next => (fits y next).1, fun _ _ w' z _ next => ?_⟩, _, -1, rfl,
      by decide⟩
    rw [moved] at next
    cases next
  | some z =>
    obtain ⟨⟨member, sooner⟩, -⟩ := step_eq_some_iff.1 moved
    have behind : Dir.backward.lt w z := by
      rcases Dir.not_lt_iff.1 (step_eq_none_iff.1 last x (ov.del_subset deleted)) with
        same | before
      · exact same ▸ sooner
      · exact Dir.trans (show Dir.backward.lt w x from before) sooner
    have whole : SkipFits ov .backward w z ↔ LeaveFits ov x := by
      refine ⟨fun skip => ⟨fun y next => (fits y next).1, fun _ _ w' z' lastW next => ?_⟩,
        fun leave => leave.backward (fun y next => (fits y next).2) noLive w z lastOf moved⟩
      obtain rfl : z = z' := Option.some.inj (moved.symm.trans next)
      obtain rfl : w = w' := Option.some.inj (lastOf.symm.trans lastW)
      exact skip
    rcases btreeSeekToExistI64_cases
      (c := { forward with pCur := advance .backward ov.shared (some x) }) moved member stays
      inDel behind with ⟨stops, wide⟩ | ⟨skip, c', ends, -⟩
    · rw [stops]
      exact .inl ⟨rfl, fun leave => wide (whole.2 leave)⟩
    · rw [ends]
      exact .inr ⟨whole.1 skip, c', -1, rfl, by decide⟩

/-- The way from a deleted entry: a check fails, or the answer is that the rowid is not there. -/
theorem leaveDeletedI64_cases (moveto : MovetoUnpacked Rowid) (flag : ov.deleteAll = false)
    (probe : Probe Rowid) (c : BtCursor Rowid) (deleted : x ∈ ov.del) (there : c.pCur = some x)
    (placed : c.pCurDel = some x) (again : moveto.land .shared ov.shared probe = some x) :
    (leaveDeletedI64 moveto ov probe c = none ∧ ¬ LeaveFits ov x) ∨
      LeaveFits ov x ∧ ∃ c' res, leaveDeletedI64 moveto ov probe c = some (c', res) ∧ res ≠ 0 := by
  unfold leaveDeletedI64
  rw [there, again]
  cases moved : step .forward ov.shared x with
  | none =>
    have start := btreeSeekToExistI64_nowhere ov .forward
      (c := { c with pCur := advance .forward ov.shared (some x) }) moved
    rw [start]
    dsimp only [Option.bind_eq_bind, Option.bind_some]
    rw [show advance .forward ov.shared (some x) = none from moved]
    refine leaveBackwardI64_cases deleted (fun y next => ?_) (fun y live later => ?_) deleted moved
      placed
    · rw [moved] at next
      cases next
    · exact step_eq_none_iff.1 moved y (Overlay.live_subset live) later
  | some y =>
    obtain ⟨⟨member, later⟩, least⟩ := step_eq_some_iff.1 moved
    have only : ∀ y', step .forward ov.shared x = some y' → y' = y := fun y' next =>
      Option.some.inj (next.symm.trans moved)
    rcases btreeSeekToExistI64_cases
      (c := { c with pCur := advance .forward ov.shared (some x) }) moved member placed deleted
      later with ⟨stops, wide⟩ | ⟨skip, c', ends, ⟨some', live⟩ | ⟨nowhere, fits, noLive, w, inDel,
        stays, last⟩⟩
    · rw [stops]
      exact .inl ⟨rfl, fun leave => wide (leave.forward y moved)⟩
    · rw [ends]
      dsimp only [Option.bind_eq_bind, Option.bind_some]
      rw [if_pos some']
      refine .inr ⟨⟨fun y' next => only y' next ▸ skip, fun fits noLive => ?_⟩, c', 1, rfl,
        by decide⟩
      obtain ⟨v, inside, kept, notBefore⟩ := live (fits y moved)
      exact absurd (Dir.lt_of_lt_of_not_lt later notBefore)
        (noLive v ((Overlay.mem_live flag).2 ⟨inside, kept⟩))
    · rw [ends]
      dsimp only [Option.bind_eq_bind, Option.bind_some]
      rw [nowhere, if_neg (by decide)]
      refine leaveBackwardI64_cases deleted (fun y' next => only y' next ▸ ⟨skip, fits⟩)
        (fun v live after => ?_) inDel last stays
      obtain ⟨inside, kept⟩ := (Overlay.mem_live flag).1 live
      exact least v inside after (noLive v inside kept)

/-- The search of the shared tree for a rowid. -/
theorem seekSharedI64_cases (moveto : MovetoUnpacked Rowid) (ov : Overlay Rowid) (rowid : Rowid)
    (c : BtCursor Rowid) :
    (seekSharedI64 moveto ov rowid c = none ∧ ¬ LookupFits moveto ov rowid) ∨
      LookupFits moveto ov rowid ∧ ∃ c' res, seekSharedI64 moveto ov rowid c = some (c', res) ∧
        SharedLookup moveto ov (.intKey rowid) (c', res, false) := by
  have point : (SearchKey.intKey rowid).IsPoint := trivial
  have exactly := seekShared_lookup point moveto ov c
  unfold seekSharedI64
  unfold seekShared at exactly
  cases flag : ov.deleteAll with
  | true =>
    rw [if_pos flag] at exactly
    rw [if_pos rfl]
    refine .inr ⟨fun kept => ?_, _, _, rfl, exactly⟩
    rw [flag] at kept
    cases kept
  | false =>
    rw [if_neg (by rw [flag]; decide)] at exactly
    rw [if_neg (by decide)]
    unfold settleShared at exactly
    by_cases left : (btreeIsDeleted moveto ov
        { c with pCur := moveto.land .shared ov.shared (Probe.exact rowid) }).2 = 0
    · rw [if_pos left]
      cases landed : moveto.land .shared ov.shared (Probe.exact rowid) with
      | none =>
        rw [landed] at left
        cases left
      | some x =>
        rw [landed] at left
        have deleted : x ∈ ov.del :=
          (pRes_exact_eq_zero (moveto.lands .del ov.del (Probe.exact x))).1 left
        have placed : moveto.land .del ov.del (Probe.exact x) = some x := by
          obtain ⟨y, found, same⟩ := (moveto.lands .del ov.del (Probe.exact x)).match deleted
            (Probe.exact_eq.2 rfl)
          rw [found, Probe.exact_eq.1 same]
        have whole : LeaveFits ov x ↔ LookupFits moveto ov rowid := by
          refine ⟨fun leave _ y _ landed' => ?_, fun lookup => lookup flag x deleted landed⟩
          exact Option.some.inj (landed.symm.trans landed') ▸ leave
        rcases leaveDeletedI64_cases moveto flag (Probe.exact rowid)
          ⟨some x, c.pCurIns, moveto.land .del ov.del (Probe.exact x), c.state⟩ deleted rfl placed
          landed with ⟨stops, wide⟩ | ⟨fits, c', res, ends, apart⟩
        · exact .inl ⟨stops, fun lookup => wide (whole.2 lookup)⟩
        · exact .inr ⟨whole.1 fits, c', res, ends,
            .missed c' res apart (.inl ⟨x, deleted, landed⟩)⟩
    · rw [if_neg left]
      refine .inr ⟨fun _ x deleted landed => absurd ?_ left, _, _, rfl, ?_⟩
      · unfold btreeIsDeleted
        rw [landed]
        exact (pRes_exact_eq_zero (moveto.lands .del ov.del (Probe.exact x))).2 deleted
      · rw [if_neg fun both => left both.1] at exactly
        exact exactly

/-- The lookup of a rowid is right if and only if the differences it checks fit. -/
theorem rowidLookup_right_iff (moveto : MovetoUnpacked Rowid) (ov : Overlay Rowid) (rowid : Rowid)
    (c : BtCursor Rowid) :
    RowidLookupRight moveto ov rowid c ↔ LookupFits moveto ov rowid := by
  have point : (SearchKey.intKey rowid).IsPoint := trivial
  unfold RowidLookupRight sqlite3BtreeMovetoUnpackedAllI64
  rcases seekSharedI64_cases moveto ov rowid c with ⟨stops, wide⟩ | ⟨fits, c', res, ends, searched⟩
  · rw [stops]
    refine iff_of_false ?_ wide
    rintro ⟨sought, ended, -⟩
    cases ended
  · rw [ends]
    refine iff_of_true ⟨_, rfl, (searched.ends point).right_iff.2 ?_⟩ fits
    rintro ⟨x, live, rfl⟩ - y deleted landed
    -- The seek lands on the rowid itself, which is live.
    have lands := moveto.lands .shared ov.shared (Probe.exact x)
    obtain ⟨z, there, same⟩ := lands.match (Overlay.live_subset live) (Probe.exact_eq.2 rfl)
    rw [show moveto.land .shared ov.shared (Probe.exact x) = some y from landed] at there
    cases there
    obtain rfl := Probe.exact_eq.1 same
    exact Overlay.not_mem_del_of_live live deleted

end Rowids

/-- The lookup of a rowid is right if and only if the differences it checks fit in 64 bits. The
lookup of an index key is right if and only if the search of the shared tree does not overlook a
match. -/
theorem point_lookups_right_iff (movetoRow : MovetoUnpacked Rowid) (rows : Overlay Rowid)
    (cRow : BtCursor Rowid) (moveto : MovetoUnpacked α) (ov : Overlay α) (c : BtCursor α) :
    (∀ rowid, RowidLookupRight movetoRow rows rowid cRow ↔ LookupFits movetoRow rows rowid) ∧
      ∀ record, LookupRight moveto ov (.idxKey record 0) c ↔ ¬ Overlooks moveto ov record :=
  ⟨fun rowid => rowidLookup_right_iff movetoRow rows rowid cRow,
    indexLookup_right_iff moveto ov c⟩

-- The way from the smallest rowid, when the next one is deleted too, ends in `SQLITE_CORRUPT`.
example :
    let second : Rowid := ⟨-2 ^ 63 + 1, by decide⟩
    let rows : Overlay Rowid :=
      ⟨{lowRowid, second, highRowid}, ∅, {lowRowid, second}, false, by decide, by decide⟩
    sqlite3BtreeMovetoUnpackedAllI64 (.ofSide fun _ => .forward) rows lowRowid
      ⟨none, none, none, .useShared⟩ = none := by
  decide

/-- Two entries with the same leading column, of which the first is deleted. -/
def oneOfTwoDeleted : Overlay Int where
  shared := {10, 11}
  ins := ∅
  del := {10}
  deleteAll := false
  del_subset := by decide
  ins_disjoint := by decide

/-- The leading column is the number of tens. -/
def tens (digit : Int) : Probe Int where
  cmp x := compare (x / 10) digit
  lt_of_le a b below small := by
    rw [compare_lt_iff_lt] at small ⊢
    omega
  gt_of_le a b below large := by
    rw [compare_gt_iff_gt] at large ⊢
    omega

/-- The lookup of a leading column finds nothing although an entry has it. -/
theorem live_duplicate_overlooked :
    let moveto := MovetoUnpacked.ofSide fun _ => .forward
    (sqlite3BtreeMovetoUnpackedAll moveto oneOfTwoDeleted (.idxKey (tens 1) 0) .other
        ⟨none, none, none, .useShared⟩).2.1 = 1 ∧
      11 ∈ oneOfTwoDeleted.view ∧ (tens 1).cmp 11 = .eq := by
  decide

end SQLumDash.Scan
