import SQLumDash.Scan.RangeScan

/-!
# How a scan goes wrong

Two tools to show that a scan fails. A shared cursor whose deletion cursor is already past
a deleted entry will show that entry. And the seek in one tree may land on either side of
the key, so a failure needs only one choice of sides.
-/

namespace SQLumDash.Scan

open OrderedCursor

variable {α : Type*} [LinearOrder α]

section Stray

variable {ov : Overlay α} {d : Dir} {c : BtCursor α} {x : α}

/-- The scan will meet the entry `x` of the shared tree and not notice whether it is deleted. -/
structure Meets (ov : Overlay α) (d : Dir) (c : BtCursor α) (x : α) : Prop where
  inside : x ∈ ov.shared
  notPast : NotPast d c.pCur x
  /-- The deletion cursor is. -/
  unnoticed : ∀ z, c.pCurDel = some z → d.lt x z
  /-- A leading insertion cursor is not past it. -/
  lead : c.state = .useTrans → NotPast d c.pCurIns x

/-- A position before the deletion cursor is not taken for deleted. -/
theorem seekToExist_unnoticed {y : α} (there : c.pCur = some y)
    (unnoticed : ∀ z, c.pCurDel = some z → d.lt y z) : btreeSeekToExist ov d c = c := by
  obtain ⟨_, pCurIns, pCurDel, state⟩ := c
  obtain rfl := there
  cases pCurDel with
  | none => rfl
  | some z =>
    have later := unnoticed z rfl
    unfold btreeSeekToExist
    simp only [seekToExistLoop, Dir.asymm later, if_false, Dir.ne later]

/-- Positions in front of `x` whose leading cursor is chosen anew still meet it. -/
theorem meets_seekToExistAll (inside : x ∈ ov.shared) (notPast : NotPast d c.pCur x)
    (unnoticed : ∀ z, c.pCurDel = some z → d.lt x z) :
    (btreeSeekToExistAll ov d c).2 = .ok ∧ Meets ov d (btreeSeekToExistAll ov d c).1 x := by
  obtain ⟨y, there, order⟩ := notPast
  have skipped : btreeSeekToExist ov d c = c :=
    seekToExist_unnoticed there fun z beyond => Dir.lt_of_not_lt_of_lt order (unnoticed z beyond)
  have front : NotPast d c.pCur x := ⟨y, there, order⟩
  unfold btreeSeekToExistAll
  rw [skipped]
  rcases leader_cases d c.pCur c.pCurIns with ⟨-, nowhere, -⟩ | ⟨_, led, -⟩ | ⟨j, led, here, first⟩
  · rw [there] at nowhere
    cases nowhere
  · simp only [led]
    exact ⟨trivial, inside, front, unnoticed, (by rintro ⟨⟩)⟩
  · simp only [led]
    refine ⟨trivial, inside, front, unnoticed, fun _ => ⟨j, here, fun past => ?_⟩⟩
    exact order (Dir.trans past (first y there))

/-- An advance keeps `x` ahead unless the scan stands on it. -/
theorem Meets.advance (meets : Meets ov d c x) (elsewhere : c.current ≠ some ⟨.useShared, x⟩) :
    (sqlite3BtreeAdvanceAll ov d c).2 = .ok ∧ Meets ov d (sqlite3BtreeAdvanceAll ov d c).1 x := by
  obtain ⟨y, there, order⟩ := meets.notPast
  unfold sqlite3BtreeAdvanceAll catchUp
  cases state : c.state with
  | useShared =>
    have apart : y ≠ x := by
      rintro rfl
      simp only [BtCursor.current, state, there, Option.map_some, ne_eq, not_true] at elsewhere
    have later : d.lt y x := Dir.lt_of_not_lt_of_ne order apart.symm
    simp only [there]
    exact meets_seekToExistAll meets.inside (notPast_step meets.inside later) meets.unnoticed
  | useTrans =>
    obtain ⟨j, thereIns, orderIns⟩ := meets.lead state
    simp only [thereIns]
    refine meets_seekToExistAll meets.inside ?_ meets.unnoticed
    simp only [there]
    by_cases behind : d.lt y j
    · rw [advanceWhile_lt behind _ (Nat.lt_succ_of_le (Finset.card_filter_le _ _))]
      have member : x ∈ ov.shared.filter fun w => ¬ d.lt w j :=
        Finset.mem_filter.2 ⟨meets.inside, orderIns⟩
      obtain ⟨z, found⟩ := exists_first (d := d) member
      exact ⟨z, found, (first_eq_some_iff.1 found).2 x member⟩
    · rw [advanceWhile_of_not_lt behind]
      exact ⟨y, rfl, order⟩

/-- A scan that meets `x` stands on an entry that is not past it. -/
theorem Meets.shows (meets : Meets ov d c x) :
    ∃ visit, c.current = some visit ∧ ¬ d.lt x visit.key := by
  cases state : c.state with
  | useShared =>
    obtain ⟨y, there, order⟩ := meets.notPast
    exact ⟨⟨.useShared, y⟩, by simp [BtCursor.current, state, there], order⟩
  | useTrans =>
    obtain ⟨j, thereIns, order⟩ := meets.lead state
    exact ⟨⟨.useTrans, j⟩, by simp [BtCursor.current, state, thereIns], order⟩

/-- A scan that meets `x` shows it. -/
theorem Meets.visits (fuel : Nat) : ∀ {c : BtCursor α} {out : List (Visit α)}, Meets ov d c x →
    Scan.visits ov d fuel c = some out → ⟨.useShared, x⟩ ∈ out := by
  induction fuel with
  | zero => intro c out _ visited; cases visited
  | succ fuel ih =>
    intro c out meets visited
    rw [Scan.visits] at visited
    obtain ⟨visit, shown, -⟩ := meets.shows
    rw [shown] at visited
    by_cases here : visit = ⟨.useShared, x⟩
    · subst here
      dsimp only at visited
      split at visited
      · obtain ⟨rest, -, rfl⟩ := Option.map_eq_some_iff.1 visited
        exact List.mem_cons_self
      · cases visited
        exact List.mem_cons_self
    · have elsewhere : c.current ≠ some ⟨.useShared, x⟩ := by
        rw [shown]
        exact fun same => here (Option.some.inj same)
      obtain ⟨ok, meets'⟩ := meets.advance elsewhere
      generalize sqlite3BtreeAdvanceAll ov d c = result at ok meets' visited
      obtain ⟨c', rc⟩ := result
      obtain rfl : rc = .ok := ok
      obtain ⟨rest, visited', rfl⟩ := Option.map_eq_some_iff.1 visited
      exact List.mem_cons_of_mem _ (ih meets' visited')

/-- A scan that meets an entry that is not live is wrong. -/
theorem Meets.not_shows {off : Bool} {P : α → Prop} (meets : Meets ov d c x)
    (elsewhere : off = true → c.current ≠ some ⟨.useShared, x⟩) (stray : x ∉ ov.live) :
    ¬ ScanShows ov d off c P := by
  rintro ⟨out, scanned, lists⟩
  have shown : (⟨.useShared, x⟩ : Visit α) ∈ out := by
    unfold scanFrom at scanned
    cases off with
    | false => exact meets.visits _ scanned
    | true =>
      obtain ⟨ok, meets'⟩ := meets.advance (elsewhere rfl)
      simp only [if_true] at scanned
      generalize sqlite3BtreeAdvanceAll ov d c = result at ok meets' scanned
      obtain ⟨c', rc⟩ := result
      obtain rfl : rc = .ok := ok
      exact meets'.visits _ scanned
  exact not_lists_of_stray shown stray lists

end Stray

section Sides

variable {content : Finset α} {probe : Probe α} {side : Tree → Dir} {tree : Tree} {x : α}

instance (probe : Probe α) (d : Dir) (x : α) : Decidable (probe.Ahead d x) :=
  match d with
  | .forward => inferInstanceAs (Decidable (probe.cmp x = .gt))
  | .backward => inferInstanceAs (Decidable (probe.cmp x = .lt))

/-- The entry of a tree that a seek finds on one side of the key. -/
def nearestAhead (probe : Probe α) (content : Finset α) (d : Dir) : Option α :=
  first d (content.filter (probe.Ahead d))

/-- Where a seek lands that prefers one side: on a match, else on that side of the key, else on
the other. -/
def landOn (d : Dir) (content : Finset α) (probe : Probe α) : Option α :=
  ((first .forward (content.filter fun x => probe.cmp x = .eq)).or
    (nearestAhead probe content d)).or (nearestAhead probe content d.flip)

/-- Such a landing is one a seek may have. -/
theorem landOn_lands (d : Dir) (content : Finset α) (probe : Probe α) :
    Landed content probe (landOn d content probe) := by
  unfold landOn
  cases same : first .forward (content.filter fun x => probe.cmp x = .eq) with
  | some x =>
    obtain ⟨inside, match_⟩ := Finset.mem_filter.1 (first_eq_some_iff.1 same).1
    simp only [Option.some_or, Landed, match_]
    exact ⟨inside, trivial⟩
  | none =>
    have apart : ∀ y ∈ content, probe.cmp y ≠ .eq := fun y inside match_ =>
      first_eq_none_iff.1 same y (Finset.mem_filter.2 ⟨inside, match_⟩)
    have nearest : ∀ d x, nearestAhead probe content d = some x →
        Landed content probe (some x) := by
      intro d x found
      obtain ⟨member, least⟩ := first_eq_some_iff.1 found
      obtain ⟨inside, ahead⟩ := Finset.mem_filter.1 member
      have behind : ∀ y ∈ content, d.lt y x → probe.Behind d y := by
        intro y within sooner
        refine (Probe.behind_or_ahead (apart y within)).resolve_right fun ahead' => ?_
        exact least y (Finset.mem_filter.2 ⟨within, ahead'⟩) sooner
      refine ⟨inside, ?_⟩
      cases d with
      | forward => rw [show probe.cmp x = .gt from ahead]; exact behind
      | backward => rw [show probe.cmp x = .lt from ahead]; exact behind
    rw [Option.none_or]
    cases this : nearestAhead probe content d with
    | some x => exact nearest d x this
    | none =>
      rw [Option.none_or]
      cases other : nearestAhead probe content d.flip with
      | some x => exact nearest d.flip x other
      | none =>
        refine Finset.eq_empty_iff_forall_notMem.2 fun y inside => ?_
        rcases Probe.behind_or_ahead (d := d) (apart y inside) with behind | ahead
        · exact first_eq_none_iff.1 other y
            (Finset.mem_filter.2 ⟨inside, Probe.flip_ahead.2 behind⟩)
        · exact first_eq_none_iff.1 this y (Finset.mem_filter.2 ⟨inside, ahead⟩)

/-- A seek that prefers a side in each tree. -/
def MovetoUnpacked.ofSide (side : Tree → Dir) : MovetoUnpacked α where
  land tree content probe := landOn (side tree) content probe
  lands tree content probe := landOn_lands (side tree) content probe

/-- A seek does not end behind the key if it prefers the other side and finds an entry there. -/
theorem ofSide_not_behind (side : Tree → Dir) (tree : Tree) {y : α}
    (landed : (MovetoUnpacked.ofSide side).land tree content probe = some y)
    (inside : x ∈ content) (ahead : probe.Ahead (side tree) x) :
    ¬ probe.Behind (side tree) y := by
  have found : ∃ z, nearestAhead probe content (side tree) = some z :=
    exists_first (Finset.mem_filter.2 ⟨inside, ahead⟩)
  obtain ⟨z, found⟩ := found
  change landOn (side tree) content probe = some y at landed
  unfold landOn at landed
  rw [found] at landed
  cases same : first .forward (content.filter fun x => probe.cmp x = .eq) with
  | some w =>
    rw [same] at landed
    cases landed
    exact fun behind => behind.apart (Finset.mem_filter.1 (first_eq_some_iff.1 same).1).2
  | none =>
    rw [same] at landed
    cases landed
    have ahead' := (Finset.mem_filter.1 (first_eq_some_iff.1 found).1).2
    exact fun behind => behind.not_ahead ahead'

/-- A seek without a match ends on the side it prefers if there is an entry. -/
theorem ofSide_near (side : Tree → Dir) (tree : Tree)
    (apart : ∀ x ∈ content, probe.cmp x ≠ .eq) (inside : x ∈ content)
    (ahead : probe.Ahead (side tree) x) :
    ∃ a, (MovetoUnpacked.ofSide side).land tree content probe = some a ∧
      Near content probe (side tree) (some a) (side tree).sign ∧
      probe.pRes (some a) = (side tree).sign := by
  have lands := (MovetoUnpacked.ofSide (α := α) side).lands tree content probe
  cases landed : (MovetoUnpacked.ofSide side).land tree content probe with
  | none =>
    rw [landed] at lands
    rw [show content = ∅ from lands] at inside
    exact absurd inside (Finset.notMem_empty x)
  | some a =>
    rw [landed] at lands
    have near : Near content probe (side tree) (some a) _ := lands.near
    have nonzero : probe.pRes (some a) ≠ 0 := by
      intro zero
      obtain ⟨y, within, same⟩ := near.res_eq_zero.1 zero
      exact apart y within same
    rcases near.sides nonzero with ⟨reported, -⟩ | ⟨-, behind⟩
    · exact ⟨a, rfl, reported ▸ near, reported⟩
    · exact absurd behind (ofSide_not_behind side tree landed inside ahead)

/-- A neighbour of the key is where a seek lands that prefers its side. -/
theorem ofSide_land_eq {a : α} (sharp : probe.Sharp) (landing : Landed content probe (some a))
    (prefers : side tree = if probe.cmp a = .lt then .backward else .forward) :
    (MovetoUnpacked.ofSide side).land tree content probe = some a := by
  by_cases inside : ∃ x ∈ content, probe.cmp x = .eq
  · obtain ⟨x, inside, same⟩ := inside
    have lands := (MovetoUnpacked.ofSide (α := α) side).lands tree content probe
    obtain ⟨y, landed, sameY⟩ := lands.match inside same
    obtain ⟨z, landed', sameZ⟩ := landing.match inside same
    rw [landed, landed', sharp y z sameY sameZ]
  · have apart : ∀ x ∈ content, probe.cmp x ≠ .eq := fun x member same => inside ⟨x, member, same⟩
    have ahead : probe.Ahead (side tree) a := by
      rw [prefers]
      split_ifs with below
      · exact below
      · exact (Probe.behind_or_ahead (d := .forward) (apart a landing.mem)).resolve_left below
    obtain ⟨b, landed, near, -⟩ := ofSide_near side tree apart landing.mem ahead
    obtain ⟨member, aheadB, nearest⟩ := near.of_ahead
    have notBefore := nearest a landing.mem fun behind => behind.not_ahead ahead
    have notBefore' : ¬ (side tree).lt b a := fun sooner =>
      (landing.ahead ahead member sooner).not_ahead aheadB
    rw [landed]
    by_contra differ
    rcases Dir.lt_or_gt (d := side tree) (fun same => differ (congrArg some same)) with h | h
    · exact notBefore' h
    · exact notBefore h

end Sides

end SQLumDash.Scan
