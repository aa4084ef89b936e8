import SQLumDash.Scan.Merge

/-!
# Scans of the whole view

A scan that starts at either end of the view and advances until nothing is left shows the whole
view in the order of its direction, and takes as many steps as the view has entries.
-/

namespace SQLumDash.Scan

open OrderedCursor

variable {α : Type*} [LinearOrder α]

/-- What the transaction sees. -/
def Overlay.view (ov : Overlay α) : Finset α :=
  if ov.deleteAll then ov.ins else (ov.shared \ ov.del) ∪ ov.ins

/-- A whole scan with a limit on the number of advances: `sqlite3BtreeFirstAll` with
`sqlite3BtreeNextAll`, or `sqlite3BtreeLastAll` with `sqlite3BtreePreviousAll`. -/
def fullScan (ov : Overlay α) (d : Dir) (state : CursorUse) (limit : Nat) :
    Option (List (Visit α)) :=
  match sqlite3BtreeFirstAll ov d state with
  | (c, .ok) => visits ov d limit c
  | _ => some []

variable {ov : Overlay α} {d : Dir} {c : BtCursor α}

/-- The view has the live entries and the inserted ones. -/
theorem Overlay.mem_view {x : α} : x ∈ ov.view ↔ x ∈ ov.live ∨ x ∈ ov.ins := by
  unfold view live
  cases ov.deleteAll <;> simp

/-- A position at the end of a tree is not past anything in it. -/
theorem notPast_first {t : Finset α} {x : α} (inside : x ∈ t) : NotPast d (first d t) x := by
  obtain ⟨y, found⟩ := exists_first (d := d) inside
  exact ⟨y, found, (first_eq_some_iff.1 found).2 x inside⟩

/-- The first positions approach the first live entry. -/
theorem approach_first (ov : Overlay α) (d : Dir) :
    Approaching ov d (fun _ => True) (if ov.deleteAll then none else first d ov.shared)
      (first d ov.del) := by
  refine ⟨?_, ?_, fun _ _ _ _ _ => trivial, ?_, ?_, ?_⟩
  · intro y found
    split at found
    · cases found
    · exact (first_eq_some_iff.1 found).1
  · exact fun y found => (first_eq_some_iff.1 found).1
  · intro x live _
    rw [Overlay.kept_of_live live]
    exact notPast_first (Overlay.live_subset live)
  · exact fun _ _ x deleted _ => notPast_first deleted
  · intro flag
    rw [if_pos flag]

/-- The first positioning ends on the first entry of the view, unless the view is empty. -/
theorem sqlite3BtreeFirstAll_cases (ov : Overlay α) (d : Dir) (state : CursorUse) :
    ((sqlite3BtreeFirstAll ov d state).2 = .done ∧ ∀ x, x ∉ ov.view) ∨
      ((sqlite3BtreeFirstAll ov d state).2 = .ok ∧
        ∃ key, At ov d (sqlite3BtreeFirstAll ov d state).1 key ∧
          ∀ x ∈ ov.view, ¬ d.lt x key) := by
  let start : BtCursor α :=
    { pCur := if ov.deleteAll then none else first d ov.shared
      pCurIns := first d ov.ins
      pCurDel := first d ov.del
      state := state }
  have settled : sqlite3BtreeFirstAll ov d state = settle d (btreeSeekToExist ov d start) := rfl
  have skipped : SkippedTo ov d (fun _ => True) start (btreeSeekToExist ov d start) :=
    Approaching.skip (approach_first ov d)
  have advanced : Advanced ov d (fun _ => True) (btreeSeekToExist ov d start) := by
    refine ⟨skipped.shared, ?_, skipped.del, skipped.notPastDel⟩
    rw [skipped.ins, Finset.filter_true]
  rw [settled]
  rcases advanced.settle_cases fun _ _ _ _ => trivial with
    ⟨done, nothing⟩ | ⟨ok, key, at_, -, least⟩
  · exact .inl ⟨done, fun x inView => nothing x (Overlay.mem_view.1 inView) trivial⟩
  · exact .inr ⟨ok, key, at_, fun x inView => least x (Overlay.mem_view.1 inView) trivial⟩

variable {out : List (Visit α)}

/-- A scan does not show more entries than it takes steps. -/
theorem visits_length_le {limit : Nat} {c : BtCursor α} (visited : visits ov d limit c = some out) :
    out.length ≤ limit := by
  induction limit generalizing c out with
  | zero => cases visited
  | succ limit ih =>
    unfold visits at visited
    split at visited
    · cases visited
      exact Nat.zero_le _
    · split at visited
      · obtain ⟨rest, later, rfl⟩ := Option.map_eq_some_iff.1 visited
        exact Nat.succ_le_succ (ih later)
      · cases visited
        simp

/-- A scan that ends does not need more steps. -/
theorem visits_mono {limit more : Nat} {c : BtCursor α} (visited : visits ov d limit c = some out)
    (le : limit ≤ more) : visits ov d more c = some out := by
  induction limit generalizing more c out with
  | zero => cases visited
  | succ limit ih =>
    obtain ⟨more, rfl⟩ : ∃ left, more = left + 1 := ⟨more - 1, by omega⟩
    unfold visits at visited ⊢
    split at visited
    · exact visited
    · split at visited
      · obtain ⟨rest, later, rfl⟩ := Option.map_eq_some_iff.1 visited
        rw [ih later (by omega), Option.map_some]
      · exact visited

/-- An entry is read from the right tree: the insertion tree for an inserted one, and the shared
tree for any other. -/
theorem Overlay.shows_iff_view {visit : Visit α} :
    ov.Shows visit ↔ visit.key ∈ ov.view ∧
      visit.use = if visit.key ∈ ov.ins then .useTrans else .useShared := by
  obtain ⟨use, key⟩ := visit
  simp only [Overlay.mem_view]
  cases use with
  | useShared =>
    by_cases inserted : key ∈ ov.ins
    · refine iff_of_false (fun live => Overlay.not_mem_ins_of_live live inserted) ?_
      simp [inserted]
    · simp [Overlay.Shows, inserted]
  | useTrans =>
    by_cases inserted : key ∈ ov.ins <;> simp [Overlay.Shows, inserted]

/-- A list of the whole view has as many entries as the view. -/
theorem Lists.length_eq (lists : Lists ov d (fun _ => True) out) : out.length = ov.view.card := by
  have distinct : (out.map Visit.key).Nodup :=
    List.pairwise_map.2 (lists.1.imp fun before => Dir.ne before)
  have keys : (out.map Visit.key).toFinset = ov.view := by
    ext x
    rw [List.mem_toFinset, List.mem_map, Overlay.mem_view, ← Overlay.shows_iff]
    constructor
    · rintro ⟨visit, member, rfl⟩
      exact ⟨visit.use, ((lists.2 visit).1 member).1⟩
    · rintro ⟨use, shown⟩
      exact ⟨⟨use, x⟩, (lists.2 ⟨use, x⟩).2 ⟨shown, trivial⟩, rfl⟩
  rw [← keys, List.toFinset_card_of_nodup distinct, List.length_map]

/-- The view counts its live and its inserted entries. -/
theorem card_live_add_card_ins : ov.live.card + ov.ins.card = ov.view.card := by
  have apart : Disjoint ov.live ov.ins :=
    Finset.disjoint_left.2 fun _ live => Overlay.not_mem_ins_of_live live
  rw [← Finset.card_union_of_disjoint apart]
  congr 1
  ext x
  rw [Finset.mem_union, Overlay.mem_view]

/-- From the first entry of the view, the advances end within as many steps as it has entries. -/
theorem At.visits_view {key : α} (at_ : At ov d c key) (least : ∀ x ∈ ov.view, ¬ d.lt x key) :
    ∃ out, Scan.visits ov d ov.view.card c = some out ∧ Lists ov d (fun _ => True) out := by
  have enough : (ov.live.filter (d.lt key)).card + (ov.ins.filter (d.lt key)).card <
      ov.view.card := by
    have total : ov.live.card + ov.ins.card = ov.view.card := card_live_add_card_ins
    have shorter : ∀ t : Finset α, key ∈ t → (t.filter (d.lt key)).card < t.card := fun t inside =>
      Finset.card_lt_card (Finset.filter_ssubset.2 ⟨key, inside, Dir.irrefl d key⟩)
    have live := Finset.card_filter_le ov.live (d.lt key)
    have ins := Finset.card_filter_le ov.ins (d.lt key)
    rcases at_.shown.mem with inLive | inIns
    · have := shorter ov.live inLive
      omega
    · have := shorter ov.ins inIns
      omega
  obtain ⟨out, visited, lists⟩ := at_.visits ov.view.card enough
  refine ⟨out, visited, lists.1, fun visit => ?_⟩
  rw [lists.2 visit]
  exact and_congr_right fun shown =>
    iff_of_true (least visit.key (Overlay.mem_view.2 shown.mem)) trivial

/-- A whole scan in either direction shows exactly the view, in order, each entry once and from
the right tree, and ends after exactly as many advances as the view has entries. -/
theorem fullScan_shows_view (ov : Overlay α) (d : Dir) (state : CursorUse) :
    ∃ out : List (Visit α), out.Pairwise (fun a b => d.lt a.key b.key) ∧
      (∀ visit, visit ∈ out ↔ visit.key ∈ ov.view ∧
        visit.use = if visit.key ∈ ov.ins then .useTrans else .useShared) ∧
      out.length = ov.view.card ∧
      ∀ limit, fullScan ov d state limit = if ov.view.card ≤ limit then some out else none := by
  suffices scan : ∃ out, Lists ov d (fun _ => True) out ∧
      ∀ limit, fullScan ov d state limit = if ov.view.card ≤ limit then some out else none by
    obtain ⟨out, lists, ends⟩ := scan
    refine ⟨out, lists.1, fun visit => ?_, lists.length_eq, ends⟩
    rw [lists.2 visit, ← Overlay.shows_iff_view]
    exact and_iff_left trivial
  unfold fullScan
  rcases sqlite3BtreeFirstAll_cases ov d state with ⟨done, nothing⟩ | ⟨ok, key, at_, least⟩
  · generalize sqlite3BtreeFirstAll ov d state = result at done
    obtain ⟨c, rc⟩ := result
    obtain rfl : rc = .done := done
    have empty : ov.view.card = 0 := Finset.card_eq_zero.2 (Finset.eq_empty_of_forall_notMem nothing)
    refine ⟨[], lists_nil fun x inView _ => nothing x (Overlay.mem_view.2 inView), fun limit => ?_⟩
    rw [if_pos (by omega)]
  · generalize sqlite3BtreeFirstAll ov d state = result at ok at_
    obtain ⟨c, rc⟩ := result
    obtain rfl : rc = .ok := ok
    obtain ⟨out, visited, lists⟩ := at_.visits_view least
    refine ⟨out, lists, fun limit => ?_⟩
    by_cases enough : ov.view.card ≤ limit
    · rw [if_pos enough]
      exact visits_mono visited enough
    · -- A scan that ended sooner would show fewer entries.
      rw [if_neg enough, Option.eq_none_iff_forall_ne_some]
      intro sooner early
      have longer : limit ≤ ov.view.card := by omega
      have same := (visits_mono early longer).symm.trans visited
      have short := visits_length_le early
      rw [Option.some.inj same, lists.length_eq] at short
      omega

end SQLumDash.Scan
