import SQLumDash.Scan.BlockScan

/-!
# Seeking by an index prefix

The entries that agree with a prefix form a block. With `default_rc` the seek ends at the
near end of the block, never on a match, and the counting of matches in the shared and in
the deletion tree tells rightly whether a match is visible.
-/

namespace SQLumDash.Scan

open OrderedCursor

variable {α : Type*} [LinearOrder α]

section Prefix

variable {record : Probe α} {d : Dir} {x y : α}

/-- The comparison of a prefix seek: matches count as lying past the key. -/
def Probe.cut (record : Probe α) (d : Dir) : Probe α := record.withDefault d.sign

/-- The near end of the block is behind the same entries as the key. -/
theorem Probe.cut_behind : (record.cut d).Behind d x ↔ record.Behind d x := by
  cases d <;> simp only [Probe.Behind, Probe.cut, Probe.withDefault, Dir.sign] <;>
    cases record.cmp x <;> decide

/-- Everything else is past the near end. -/
theorem Probe.cut_ahead : (record.cut d).Ahead d x ↔ ¬ record.Behind d x := by
  cases d <;> simp only [Probe.Ahead, Probe.Behind, Probe.cut, Probe.withDefault, Dir.sign] <;>
    cases record.cmp x <;> decide

/-- Nothing agrees with the near end. -/
theorem Probe.cut_ne_eq : (record.cut d).cmp x ≠ .eq := by
  cases d <;> simp only [Probe.cut, Probe.withDefault, Dir.sign] <;>
    cases record.cmp x <;> decide

/-- At most one entry agrees with it. -/
theorem Probe.cut_sharp : (record.cut d).Sharp := fun _ _ same => absurd same Probe.cut_ne_eq

/-- A match does not lie before the block. -/
theorem Probe.not_behind_of_eq (same : record.cmp x = .eq) : ¬ record.Behind d x :=
  fun behind => behind.apart same

/-- Between the near end of the block and a match everything matches. -/
theorem Probe.eq_of_before (notBehind : ¬ record.Behind d x) (same : record.cmp y = .eq)
    (before : ¬ d.lt y x) : record.cmp x = .eq := by
  by_contra apart
  have ahead := (Probe.behind_or_ahead apart).resolve_left notBehind
  exact (ahead.of_not_lt fun later => before later).apart same

/-- A prefix seek never reports a match. -/
theorem Near.cut_ne_zero {content : Finset α} {cursor : Option α} {res : Int}
    (near : Near content (record.cut d) d cursor res) : res ≠ 0 := by
  intro zero
  obtain ⟨x, -, same⟩ := near.res_eq_zero.1 zero
  exact Probe.cut_ne_eq same

end Prefix

section Counting

variable {record : Probe α} {d : Dir} {content : Finset α} {x : α}

/-- The entries that agree with the record. -/
def matching (record : Probe α) (content : Finset α) : Finset α :=
  content.filter fun x => record.cmp x = .eq

/-- The entries counted are those that match. -/
theorem mem_matching : x ∈ matching record content ↔ x ∈ content ∧ record.cmp x = .eq :=
  Finset.mem_filter

/-- Counting from an entry that is not before the block counts the matches from there on. -/
theorem countSameKey_eq (fuel : Nat) : ∀ {x : α}, x ∈ content → ¬ record.Behind d x →
    ahead d content (some x) < fuel →
    (btreeCursorCountSameKey d content record fuel (some x)).1 =
      ((matching record content).filter fun y => ¬ d.lt y x).card := by
  induction fuel with
  | zero => intro x _ _ enough; omega
  | succ fuel ih =>
    intro x inside notBehind enough
    rw [btreeCursorCountSameKey]
    have laterNotBehind : ∀ {y}, d.lt x y → ¬ record.Behind d y :=
      fun later behind => notBehind (behind.of_not_lt (Dir.asymm later))
    split_ifs with same
    · have split : (matching record content).filter (fun y => ¬ d.lt y x) =
          insert x ((matching record content).filter (d.lt x)) := by
        ext y
        simp only [Finset.mem_filter, Finset.mem_insert, mem_matching, Dir.not_lt_iff]
        constructor
        · rintro ⟨member, rfl | later⟩
          · exact .inl rfl
          · exact .inr ⟨member, later⟩
        · rintro (rfl | ⟨member, later⟩)
          · exact ⟨⟨inside, same⟩, .inl rfl⟩
          · exact ⟨member, .inr later⟩
      rw [split, Finset.card_insert_of_notMem (by simp)]
      dsimp only
      congr 1
      have shorter := ahead_step_lt (d := d) inside
      cases moved : step d content x with
      | none =>
        have stays : btreeCursorCountSameKey d content record fuel none = (0, none) := by
          cases fuel <;> rfl
        rw [stays]
        symm
        rw [Finset.card_eq_zero, Finset.filter_eq_empty_iff]
        exact fun y member => step_eq_none_iff.1 moved y (mem_matching.1 member).1
      | some next =>
        obtain ⟨⟨insideNext, later⟩, least⟩ := step_eq_some_iff.1 moved
        rw [moved] at shorter
        rw [ih insideNext (laterNotBehind later) (by omega)]
        congr 1
        apply Finset.filter_congr
        intro y member
        constructor
        · exact fun notBefore => Dir.lt_of_lt_of_not_lt later notBefore
        · exact least y (mem_matching.1 member).1
    · symm
      rw [Finset.card_eq_zero, Finset.filter_eq_empty_iff]
      intro y member notBefore
      have match_ := (mem_matching.1 member).2
      exact same (Probe.eq_of_before notBehind match_ notBefore)

/-- Counting from where a prefix seek landed counts every match. -/
theorem countMatches_eq {landed : Option α} {res : Int} (moveOver : Bool)
    (near : Near content (record.cut d) d landed res)
    (moves : ∀ a, landed = some a → record.Behind d a → moveOver = true) :
    (countMatches d content record d.sign landed res moveOver).1 =
      (matching record content).card := by
  have all : ∀ {a}, (∀ y ∈ matching record content, ¬ d.lt y a) →
      (matching record content).filter (fun y => ¬ d.lt y a) = matching record content :=
    fun notBefore => Finset.filter_true_of_mem notBefore
  have enough : ∀ a, ahead d content (some a) < content.card + 1 := fun a =>
    Nat.lt_succ_of_le (Finset.card_filter_le _ _)
  unfold countMatches
  cases near with
  | nowhere empty =>
    have start : (if moveOver = true ∧ (-1 : Int) ≠ d.sign then advance d content none else none) =
        none := by split_ifs <;> rfl
    simp only [start]
    simp [empty, matching, btreeCursorCountSameKey]
  | on a _ same => exact absurd same Probe.cut_ne_eq
  | ahead a inside ahead nearest =>
    have start : (if moveOver = true ∧ d.sign ≠ d.sign then advance d content (some a)
        else some a) = some a := by simp
    simp only [start]
    rw [countSameKey_eq _ inside (Probe.cut_ahead.1 ahead) (enough a), all]
    intro y member
    obtain ⟨insideY, same⟩ := mem_matching.1 member
    exact nearest y insideY fun behind =>
      Probe.not_behind_of_eq same (Probe.cut_behind.1 behind)
  | behind a inside behind nearest =>
    have differs : -d.sign ≠ d.sign := by cases d <;> decide
    have start : (if moveOver = true ∧ -d.sign ≠ d.sign then advance d content (some a)
        else some a) = step d content a :=
      if_pos ⟨moves a rfl (Probe.cut_behind.1 behind), differs⟩
    simp only [start]
    have later : ∀ y ∈ matching record content, d.lt a y := by
      intro y member
      have same := (mem_matching.1 member).2
      exact behind.lt fun behindY => Probe.not_behind_of_eq same (Probe.cut_behind.1 behindY)
    cases moved : step d content a with
    | none =>
      have none_ : matching record content = ∅ := by
        refine Finset.eq_empty_of_forall_notMem fun y member => ?_
        exact step_eq_none_iff.1 moved y (mem_matching.1 member).1 (later y member)
      rw [none_]
      rfl
    | some b =>
      obtain ⟨⟨insideB, laterB⟩, least⟩ := step_eq_some_iff.1 moved
      have ahead := nearest b insideB laterB
      rw [countSameKey_eq _ insideB (Probe.cut_ahead.1 ahead) (enough b), all]
      exact fun y member => least y (mem_matching.1 member).1 (later y member)

variable {moveto : MovetoUnpacked α} {ov : Overlay α} {opcode : Opcode} {c : BtCursor α}

/-- Some entry of the set agrees with the record. -/
def hasMatch (record : Probe α) (content : Finset α) : Prop := ∃ x ∈ content, record.cmp x = .eq

instance (record : Probe α) (content : Finset α) : Decidable (hasMatch record content) :=
  inferInstanceAs (Decidable (∃ x ∈ content, record.cmp x = .eq))

/-- A seek sees a match if there is one. -/
theorem eqSeenIn_eq (content : Finset α) :
    eqSeenIn record content = decide (hasMatch record content) := rfl

/-- Nothing is counted exactly where nothing matches. -/
theorem card_matching_eq_zero : (matching record content).card = 0 ↔ ¬ hasMatch record content := by
  rw [Finset.card_eq_zero, matching, Finset.filter_eq_empty_iff]
  simp [hasMatch]

/-- More matches are shared than deleted just when one is live. -/
theorem card_matching_lt (kept : ov.deleteAll = false) :
    (matching record ov.shared).card > (matching record ov.del).card ↔ hasMatch record ov.live := by
  have fewer : matching record ov.del ⊆ matching record ov.shared :=
    Finset.filter_subset_filter _ ov.del_subset
  constructor
  · intro more
    obtain ⟨x, member, notDeleted⟩ := Finset.exists_mem_notMem_of_card_lt_card more
    obtain ⟨inside, same⟩ := mem_matching.1 member
    refine ⟨x, (Overlay.mem_live kept).2 ⟨inside, fun deleted => ?_⟩, same⟩
    exact notDeleted (mem_matching.2 ⟨deleted, same⟩)
  · rintro ⟨x, live, same⟩
    apply Finset.card_lt_card
    rw [Finset.ssubset_iff_of_subset fewer]
    refine ⟨x, mem_matching.2 ⟨Overlay.live_subset live, same⟩, fun member => ?_⟩
    exact Overlay.not_mem_del_of_live live (mem_matching.1 member).1

/-- The counting of matches tells whether a live one is there. -/
theorem seekCount_eq (kept : ov.deleteAll = false) (landed : Option α)
    (lands : Landed ov.shared (record.cut opcode.dir) landed) :
    (seekCount moveto ov opcode record opcode.direction landed
      ((record.cut opcode.dir).pRes landed)).1 = decide (hasMatch record ov.live) := by
  have onMatch : ∀ a, landed = some a → record.Behind opcode.dir a →
      (!landed.any fun x => record.cmp x = .eq) = true := by
    rintro a rfl behind
    simp [behind.apart]
  have shared := countMatches_eq _ (lands.near (d := opcode.dir)) onMatch
  have del := countMatches_eq true
    ((moveto.lands .del ov.del (record.cut opcode.dir)).near (d := opcode.dir)) fun _ _ _ => rfl
  rw [Opcode.direction_eq]
  change decide ((countMatches opcode.dir ov.shared record opcode.dir.sign landed _ _).1 > _) = _
  rw [shared]
  have deleted : (if eqSeenIn record ov.del then
        countMatches opcode.dir ov.del record opcode.dir.sign
          (moveto.land .del ov.del (record.cut opcode.dir))
          ((record.cut opcode.dir).pRes (moveto.land .del ov.del (record.cut opcode.dir))) true
      else (0, moveto.land .del ov.del (record.cut opcode.dir))).1 =
        (matching record ov.del).card := by
    rw [eqSeenIn_eq]
    by_cases some_ : hasMatch record ov.del
    · simp only [some_, decide_true, if_true, del]
    · simp only [some_, decide_false, Bool.false_eq_true, if_false]
      exact (card_matching_eq_zero.2 some_).symm
  refine (congrArg (fun n => decide ((matching record ov.shared).card > n)) deleted).trans ?_
  exact decide_eq_decide.2 (card_matching_lt kept)

/-- The seek in the shared tree reports a match just when a live one is there. -/
theorem seekShared_eqSeen (moveto : MovetoUnpacked α) (ov : Overlay α) (record : Probe α)
    (opcode : Opcode) (c : BtCursor α) :
    (seekShared moveto ov (.idxKey record opcode.direction) opcode c).2.2 =
      decide (hasMatch record ov.live) := by
  have nonzero : opcode.direction ≠ 0 := by cases opcode <;> decide
  cases flag : ov.deleteAll with
  | true =>
    have none_ : ¬ hasMatch record ov.live := by simp [hasMatch, Overlay.live, flag]
    simp [seekShared, flag, none_]
  | false =>
    have fewer : hasMatch record ov.live → hasMatch record ov.shared := by
      rintro ⟨x, live, same⟩
      exact ⟨x, Overlay.live_subset live, same⟩
    simp only [seekShared, flag, Bool.false_eq_true, if_false, SearchKey.keepsEqSeen, seekEqSeen,
      SearchKey.probe, eqSeenIn_eq]
    by_cases shared : hasMatch record ov.shared
    · simp only [shared, decide_true, ne_eq, nonzero, not_false_eq_true, and_self, if_true,
        Bool.and_self, Bool.or_true, Bool.and_true]
      have cut : record.withDefault opcode.direction = record.cut opcode.dir := by
        rw [Opcode.direction_eq]
        rfl
      rw [cut]
      exact seekCount_eq flag _ (moveto.lands .shared ov.shared _)
    · have none_ : ¬ hasMatch record ov.live := fun live => shared (fewer live)
      simp [shared, none_]

end Counting

end SQLumDash.Scan
