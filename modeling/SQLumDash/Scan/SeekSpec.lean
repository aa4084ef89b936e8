import SQLumDash.Scan.Merge
import SQLumDash.Scan.Seek

/-!
# Where a seek leaves the cursors

The shared cursor ends on a live entry next to the key, or on the first live entry above
it, or, when none is left there, on the last one below. The deletion cursor is left next
to that entry in the first case and on its far side in the other two.
-/

namespace SQLumDash.Scan

open OrderedCursor

variable {α : Type*} [LinearOrder α]

namespace Probe

variable {probe : Probe α} {d : Dir} {x y : α}

/-- The entry is met before the key when walking in direction `d`. -/
def Behind (probe : Probe α) (d : Dir) (x : α) : Prop :=
  match d with
  | .forward => probe.cmp x = .lt
  | .backward => probe.cmp x = .gt

/-- The entry is met after the key when walking in direction `d`. -/
def Ahead (probe : Probe α) (d : Dir) (x : α) : Prop :=
  match d with
  | .forward => probe.cmp x = .gt
  | .backward => probe.cmp x = .lt

/-- An entry that does not match is on one of the two sides. -/
theorem behind_or_ahead (apart : probe.cmp x ≠ .eq) : probe.Behind d x ∨ probe.Ahead d x := by
  cases d <;> simp only [Behind, Ahead] <;> cases order : probe.cmp x <;> simp_all

/-- No entry is on both sides. -/
theorem Behind.not_ahead (behind : probe.Behind d x) : ¬ probe.Ahead d x := by
  cases d <;> simp only [Behind, Ahead] at * <;> simp_all

/-- What does not come after an entry behind the key is behind it. -/
theorem Behind.of_not_lt (behind : probe.Behind d y) (order : ¬ d.lt y x) : probe.Behind d x := by
  cases d with
  | forward => exact probe.lt_of_le x y (not_lt.1 order) behind
  | backward => exact probe.gt_of_le y x (not_lt.1 order) behind

/-- What does not come before an entry ahead of the key is ahead of it. -/
theorem Ahead.of_not_lt (ahead : probe.Ahead d x) (order : ¬ d.lt y x) : probe.Ahead d y := by
  cases d with
  | forward => exact probe.gt_of_le x y (not_lt.1 order) ahead
  | backward => exact probe.lt_of_le y x (not_lt.1 order) ahead

/-- An entry behind the key comes before any that is not. -/
theorem Behind.lt (behind : probe.Behind d x) (notBehind : ¬ probe.Behind d y) : d.lt x y := by
  by_contra order
  exact notBehind (behind.of_not_lt order)

/-- An entry ahead of the key comes after any that is not. -/
theorem Ahead.lt (ahead : probe.Ahead d y) (notAhead : ¬ probe.Ahead d x) : d.lt x y := by
  by_contra order
  exact notAhead (ahead.of_not_lt order)

/-- Turning around exchanges the sides. -/
theorem flip_behind : probe.Behind d.flip x ↔ probe.Ahead d x := by
  cases d <;> exact Iff.rfl

/-- The same for the other side. -/
theorem flip_ahead : probe.Ahead d.flip x ↔ probe.Behind d x := by
  cases d <;> exact Iff.rfl

/-- At most one entry matches the key. -/
def Sharp (probe : Probe α) : Prop := ∀ x y, probe.cmp x = .eq → probe.cmp y = .eq → x = y

/-- Only one entry agrees with an exact key. -/
theorem exact_sharp (key : α) : (exact key).Sharp := by
  intro x y left right
  exact (compare_eq_iff_eq.1 left).trans (compare_eq_iff_eq.1 right).symm

/-- Behind an exact key are the entries before it. -/
theorem exact_behind {key : α} : (exact key).Behind d x ↔ d.lt x key := by
  cases d
  · exact compare_lt_iff_lt
  · exact compare_gt_iff_gt

/-- Ahead of an exact key are the entries after it. -/
theorem exact_ahead {key : α} : (exact key).Ahead d x ↔ d.lt key x := by
  cases d
  · exact compare_gt_iff_gt
  · exact compare_lt_iff_lt

/-- Only the key itself matches it. -/
theorem exact_eq {key : α} : (exact key).cmp x = .eq ↔ x = key := compare_eq_iff_eq

/-- An entry ahead of the key does not match. -/
theorem Ahead.apart (ahead : probe.Ahead d x) : probe.cmp x ≠ .eq := by
  cases d <;> simp only [Ahead] at ahead <;> rw [ahead] <;> decide

/-- Nor does one behind it. -/
theorem Behind.apart (behind : probe.Behind d x) : probe.cmp x ≠ .eq := by
  cases d <;> simp only [Behind] at behind <;> rw [behind] <;> decide

/-- The only match comes first among what is not behind the key. -/
theorem Sharp.not_lt (sharp : probe.Sharp) (same : probe.cmp x = .eq)
    (notBehind : ¬ probe.Behind d y) : ¬ d.lt y x := by
  intro sooner
  by_cases match_ : probe.cmp y = .eq
  · rw [sharp y x match_ same] at sooner
    exact Dir.irrefl d x sooner
  · have ahead := (behind_or_ahead match_).resolve_left notBehind
    exact (ahead.of_not_lt (Dir.asymm sooner)).apart same

end Probe

section Landing

variable {content : Finset α} {probe : Probe α} {d : Dir} {x y : α} {landed : Option α}

/-- A seek lands on an entry of the tree. -/
theorem Landed.mem (landing : Landed content probe (some x)) : x ∈ content := landing.1

/-- So does that of the vendored b-tree. -/
theorem MovetoUnpacked.land_mem (moveto : MovetoUnpacked α) {tree : Tree}
    (landed : moveto.land tree content probe = some x) : x ∈ content := by
  have landing := moveto.lands tree content probe
  rw [landed] at landing
  exact landing.mem

/-- Nothing lies between an entry landed on behind the key and the key. -/
theorem Landed.behind (landing : Landed content probe (some x)) (behind : probe.Behind d x)
    (inside : y ∈ content) (later : d.lt x y) : probe.Ahead d y := by
  obtain ⟨-, next⟩ := landing
  cases d with
  | forward =>
    rw [show probe.cmp x = .lt from behind] at next
    exact next y inside later
  | backward =>
    rw [show probe.cmp x = .gt from behind] at next
    exact next y inside later

/-- Nothing lies between the key and an entry landed on ahead of it. -/
theorem Landed.ahead (landing : Landed content probe (some x)) (ahead : probe.Ahead d x)
    (inside : y ∈ content) (sooner : d.lt y x) : probe.Behind d y := by
  obtain ⟨-, next⟩ := landing
  cases d with
  | forward =>
    rw [show probe.cmp x = .gt from ahead] at next
    exact next y inside sooner
  | backward =>
    rw [show probe.cmp x = .lt from ahead] at next
    exact next y inside sooner

/-- A seek in a tree that has a match lands on a match. -/
theorem Landed.match (landing : Landed content probe landed) (inside : y ∈ content)
    (same : probe.cmp y = .eq) : ∃ x, landed = some x ∧ probe.cmp x = .eq := by
  cases landed with
  | none => exact absurd landing (Finset.ne_empty_of_mem inside)
  | some x =>
    refine ⟨x, rfl, ?_⟩
    by_contra apart
    rcases Probe.behind_or_ahead (d := .forward) apart with behind | ahead
    · have later : (Dir.forward).lt x y := behind.lt (by simp only [Probe.Behind, same]; decide)
      have absurd := landing.behind behind inside later
      simp only [Probe.Ahead, same] at absurd
      cases absurd
    · have sooner : (Dir.forward).lt y x := ahead.lt (by simp only [Probe.Ahead, same]; decide)
      have absurd := landing.ahead ahead inside sooner
      simp only [Probe.Behind, same] at absurd
      cases absurd

/-- A cursor sought to `x` is not past anything after `x`, in either direction. -/
theorem Landed.notPast (landing : Landed content (Probe.exact x) landed) (inside : y ∈ content)
    (later : d.lt x y) : NotPast d landed y := by
  cases landed with
  | none => exact absurd landing (Finset.ne_empty_of_mem inside)
  | some z =>
    refine ⟨z, rfl, fun past => ?_⟩
    have ahead : (Probe.exact x).Ahead d z := Probe.exact_ahead.2 (Dir.trans later past)
    have behind := landing.ahead ahead inside past
    exact Dir.asymm later (Probe.exact_behind.1 behind)

/-- What a seek reports, in terms of the walk the opcode asks for. -/
theorem pRes_cases (probe : Probe α) (x : α) :
    (probe.cmp x = .lt ∧ probe.pRes (some x) = -1) ∨ (probe.cmp x = .eq ∧ probe.pRes (some x) = 0) ∨
      (probe.cmp x = .gt ∧ probe.pRes (some x) = 1) := by
  cases order : probe.cmp x <;> simp [Probe.pRes, order]

/-- A seek to an entry lands on it exactly when the tree has it. -/
theorem pRes_exact_eq_zero (landing : Landed content (Probe.exact x) landed) :
    (Probe.exact x).pRes landed = 0 ↔ x ∈ content := by
  constructor
  · intro zero
    cases landed with
    | none => simp [Probe.pRes] at zero
    | some y =>
      rcases pRes_cases (Probe.exact x) y with ⟨-, res⟩ | ⟨same, -⟩ | ⟨-, res⟩
      · rw [res] at zero; cases zero
      · rw [← Probe.exact_eq.1 same]
        exact landing.mem
      · rw [res] at zero; cases zero
  · intro inside
    obtain ⟨y, rfl, same⟩ := landing.match inside (Probe.exact_eq.2 rfl)
    simp only [Probe.pRes, same]

end Landing

/-- Where a cursor stands among the entries `content` after a seek, seen in direction `d`, and
the order the seek reports. -/
inductive Near (content : Finset α) (probe : Probe α) (d : Dir) : Option α → Int → Prop
  /-- There is no entry. -/
  | nowhere (empty : content = ∅) : Near content probe d none (-1)
  | on (a : α) (inside : a ∈ content) (same : probe.cmp a = .eq) : Near content probe d (some a) 0
  /-- On the first entry past the key. -/
  | ahead (a : α) (inside : a ∈ content) (ahead : probe.Ahead d a)
      (nearest : ∀ x ∈ content, ¬ probe.Behind d x → ¬ d.lt x a) :
      Near content probe d (some a) d.sign
  /-- On the last entry before the key. -/
  | behind (a : α) (inside : a ∈ content) (behind : probe.Behind d a)
      (nearest : ∀ x ∈ content, d.lt a x → probe.Ahead d x) :
      Near content probe d (some a) (-d.sign)

section NearLemmas

variable {content sub : Finset α} {probe : Probe α} {d : Dir} {a x : α} {landed : Option α}
  {res : Int}

/-- A seek ends next to the key. -/
theorem Landed.near (landing : Landed content probe landed) :
    Near content probe d landed (probe.pRes landed) := by
  cases landed with
  | none => exact .nowhere landing
  | some a =>
    rcases pRes_cases probe a with ⟨order, reported⟩ | ⟨order, reported⟩ | ⟨order, reported⟩ <;>
      rw [reported]
    · cases d with
      | forward => exact .behind a landing.mem order fun x => landing.behind (d := .forward) order
      | backward =>
        refine .ahead a landing.mem order fun x inside notBehind sooner => ?_
        exact notBehind (landing.ahead (d := .backward) order inside sooner)
    · exact .on a landing.mem order
    · cases d with
      | forward =>
        refine .ahead a landing.mem order fun x inside notBehind sooner => ?_
        exact notBehind (landing.ahead (d := .forward) order inside sooner)
      | backward => exact .behind a landing.mem order fun x => landing.behind (d := .backward) order

/-- The same position seen in the other direction. -/
theorem Near.flip (near : Near content probe d landed res) :
    Near content probe d.flip landed res := by
  cases near with
  | nowhere empty => exact .nowhere empty
  | on a inside same => exact .on a inside same
  | ahead a inside ahead nearest =>
    have sign : d.sign = -d.flip.sign := by cases d <;> rfl
    rw [sign]
    refine .behind a inside (Probe.flip_behind.2 ahead) fun x within later => ?_
    rw [Dir.flip_lt] at later
    rw [Probe.flip_ahead]
    by_contra notBehind
    exact nearest x within notBehind later
  | behind a inside behind nearest =>
    have sign : -d.sign = d.flip.sign := by cases d <;> rfl
    rw [sign]
    refine .ahead a inside (Probe.flip_ahead.2 behind) fun x within notBehind sooner => ?_
    rw [Dir.flip_lt] at sooner
    rw [Probe.flip_behind] at notBehind
    exact notBehind (nearest x within sooner)

/-- A position next to the key stays so among fewer entries. -/
theorem Near.restrict (near : Near content probe d (some a) res) (fewer : sub ⊆ content)
    (inside : a ∈ sub) : Near sub probe d (some a) res := by
  cases near with
  | on _ _ same => exact .on a inside same
  | ahead _ _ ahead nearest => exact .ahead a inside ahead fun x within => nearest x (fewer within)
  | behind _ _ behind nearest =>
    exact .behind a inside behind fun x within => nearest x (fewer within)

/-- Where the seek reports a match there is one, and elsewhere there is none. -/
theorem Near.res_eq_zero (near : Near content probe d landed res) :
    res = 0 ↔ ∃ x ∈ content, probe.cmp x = .eq := by
  cases near with
  | nowhere empty => simp [empty]
  | on a inside same => exact ⟨fun _ => ⟨a, inside, same⟩, fun _ => rfl⟩
  | ahead a inside ahead nearest =>
    constructor
    · cases d <;> intro zero <;> cases zero
    · rintro ⟨x, within, same⟩
      have notBehind : ¬ probe.Behind d x := fun behind => behind.apart same
      have sooner : d.lt x a := ahead.lt fun ahead' => ahead'.apart same
      exact absurd sooner (nearest x within notBehind)
  | behind a inside behind nearest =>
    constructor
    · cases d <;> intro zero <;> cases zero
    · rintro ⟨x, within, same⟩
      have later : d.lt a x := behind.lt fun behind' => behind'.apart same
      exact absurd same (nearest x within later).apart

/-- A match is where the seek lands. -/
theorem Near.eq_of_match (near : Near content probe d landed res) (sharp : probe.Sharp)
    (inside : x ∈ content) (same : probe.cmp x = .eq) : landed = some x ∧ res = 0 := by
  have zero := near.res_eq_zero.2 ⟨x, inside, same⟩
  subst zero
  refine ⟨?_, rfl⟩
  generalize position : (0 : Int) = reported at near
  cases near with
  | nowhere _ => cases position
  | on a _ same' => rw [sharp a x same' same]
  | ahead _ _ _ _ | behind _ _ _ _ => cases d <;> cases position

/-- A report of the far side means the first entry past the key. -/
theorem Near.of_ahead (near : Near content probe d (some a) d.sign) :
    a ∈ content ∧ probe.Ahead d a ∧ ∀ x ∈ content, ¬ probe.Behind d x → ¬ d.lt x a := by
  generalize reported : d.sign = res at near
  cases near with
  | on _ _ _ => cases d <;> cases reported
  | ahead _ inside ahead nearest => exact ⟨inside, ahead, nearest⟩
  | behind _ _ _ _ => cases d <;> cases reported

/-- A report of the near side means the last entry before the key. -/
theorem Near.of_behind (near : Near content probe d (some a) (-d.sign)) :
    a ∈ content ∧ probe.Behind d a ∧ ∀ x ∈ content, d.lt a x → probe.Ahead d x := by
  generalize reported : -d.sign = res at near
  cases near with
  | on _ _ _ | ahead _ _ _ _ => cases d <;> cases reported
  | behind _ inside behind nearest => exact ⟨inside, behind, nearest⟩

/-- Without a match the cursor is on one side of the key. -/
theorem Near.sides (near : Near content probe d (some a) res) (apart : res ≠ 0) :
    (res = d.sign ∧ probe.Ahead d a) ∨ (res = -d.sign ∧ probe.Behind d a) := by
  cases near with
  | on _ _ _ => exact absurd rfl apart
  | ahead _ _ ahead _ => exact .inl ⟨rfl, ahead⟩
  | behind _ _ behind _ => exact .inr ⟨rfl, behind⟩

end NearLemmas

/-- The deletion cursor stands on the first deleted entry after `l`, if there is one. -/
structure Beyond (ov : Overlay α) (d : Dir) (l : α) (pCurDel : Option α) : Prop where
  within : ∀ x, pCurDel = some x → x ∈ ov.del ∧ d.lt l x
  notPast : ∀ x ∈ ov.del, d.lt l x → NotPast d pCurDel x

/-- Where the search of the shared tree leaves the shared cursor, the deletion cursor and the
order of the former, by where the seek landed. -/
inductive SharedLanding (moveto : MovetoUnpacked α) (ov : Overlay α) (probe : Probe α) :
    Option α → Option α → Int → Prop
  /-- The seek landed on a live entry. -/
  | live (a : α) (landed : moveto.land .shared ov.shared probe = some a) (isLive : a ∈ ov.live) :
      SharedLanding moveto ov probe (some a) (moveto.land .del ov.del (Probe.exact a))
        (probe.pRes (some a))
  /-- It landed on a deleted entry and a live one follows. -/
  | up (a l : α) (pCurDel : Option α) (landed : moveto.land .shared ov.shared probe = some a)
      (deleted : a ∈ ov.del) (next : step .forward ov.live a = some l)
      (beyond : Beyond ov .forward l pCurDel) : SharedLanding moveto ov probe (some l) pCurDel 1
  /-- It landed on a deleted entry, no live one follows and one precedes. -/
  | down (a l : α) (pCurDel : Option α) (landed : moveto.land .shared ov.shared probe = some a)
      (deleted : a ∈ ov.del) (last : step .forward ov.live a = none)
      (next : step .backward ov.live a = some l) (beyond : Beyond ov .backward l pCurDel) :
      SharedLanding moveto ov probe (some l) pCurDel (-1)
  /-- It landed on a deleted entry and nothing is live. -/
  | gone (a : α) (pCurDel : Option α) (landed : moveto.land .shared ov.shared probe = some a)
      (deleted : a ∈ ov.del) (noneLive : ∀ x, x ∉ ov.live)
      (within : ∀ x, pCurDel = some x → x ∈ ov.del) :
      SharedLanding moveto ov probe none pCurDel (-1)
  /-- The shared tree is empty. -/
  | empty (noneShared : ov.shared = ∅) : SharedLanding moveto ov probe none none (-1)

section Shared

variable {moveto : MovetoUnpacked α} {ov : Overlay α} {probe : Probe α} {c : BtCursor α} {a : α}
  {pCur pCurDel : Option α} {res : Int} {d : Dir}

/-- Stepping off a deleted entry approaches the next live one, as long as the deletion cursor
is not past that entry. -/
theorem approach_of_deleted (kept : ov.deleteAll = false)
    (within : ∀ x, pCurDel = some x → x ∈ ov.del) (notPast : NotPast d pCurDel a) :
    Approaching ov d (d.lt a) (step d ov.shared a) pCurDel := by
  refine approach_step kept within (fun x _ => Iff.rfl) fun x _ later => ?_
  obtain ⟨z, there, order⟩ := notPast
  exact ⟨z, there, fun past => order (Dir.trans later past)⟩

/-- Leaving a deleted entry: up if something live follows, else down. -/
theorem leaveDeleted_spec (kept : ov.deleteAll = false)
    (landed : moveto.land .shared ov.shared probe = some a) (deleted : a ∈ ov.del)
    (here : c.pCur = some a) (atDel : c.pCurDel = some a) :
    let left := leaveDeleted moveto ov probe c
    SharedLanding moveto ov probe left.1.pCur left.1.pCurDel left.2 ∧
      left.1.pCurIns = c.pCurIns := by
  have within : ∀ x, c.pCurDel = some x → x ∈ ov.del := by
    intro x there
    rw [atDel] at there
    exact Option.some.inj there ▸ deleted
  have forward := Approaching.skip
    (c := { c with pCur := advance .forward ov.shared c.pCur }) (by
      rw [here]
      exact approach_of_deleted kept within ⟨a, atDel, Dir.irrefl _ a⟩)
  unfold leaveDeleted
  dsimp only
  generalize btreeSeekToExist ov .forward
    { c with pCur := advance .forward ov.shared c.pCur } = up at forward
  cases above : up.pCur with
  | some l =>
    simp only [Option.isSome_some, if_true]
    refine ⟨?_, forward.ins⟩
    rw [above]
    exact .up a l up.pCurDel landed deleted (forward.shared.symm.trans above)
      ⟨fun x there => ⟨forward.del x there, forward.beyond l above x there⟩,
        forward.notPastDel l above⟩
  | none =>
    simp only [Option.isSome_none, Bool.false_eq_true, if_false, landed]
    have last := forward.shared.symm.trans above
    obtain ⟨z, there, order⟩ := forward.exhausted above a atDel
    have backward := Approaching.skip
      (c := { up with pCur := advance .backward ov.shared (some a) })
      (approach_of_deleted (d := .backward) kept forward.del ⟨z, there, order⟩)
    generalize btreeSeekToExist ov .backward
      { up with pCur := advance .backward ov.shared (some a) } = down at backward
    refine ⟨?_, backward.ins.trans forward.ins⟩
    cases below : down.pCur with
    | some l =>
      exact .down a l down.pCurDel landed deleted last (backward.shared.symm.trans below)
        ⟨fun x there => ⟨backward.del x there, backward.beyond l below x there⟩,
          backward.notPastDel l below⟩
    | none =>
      apply SharedLanding.gone a down.pCurDel landed deleted _ backward.del
      intro x live
      rcases Dir.lt_or_gt (d := .forward) (Overlay.ne_of_del deleted live) with later | sooner
      · exact step_eq_none_iff.1 last x live later
      · exact step_eq_none_iff.1 (backward.shared.symm.trans below) x live sooner

variable {opcode : Opcode}

/-- The check of the entry landed on leaves the cursors as `SharedLanding` says. -/
theorem settleShared_landing (kept : ov.deleteAll = false) (asked : opcode ≠ .zero)
    (landed : c.pCur = moveto.land .shared ov.shared probe)
    (unplaced : ov.shared = ∅ → c.pCurDel = none) :
    let settled := settleShared moveto ov probe opcode c
    SharedLanding moveto ov probe settled.1.pCur settled.1.pCurDel settled.2.1 := by
  have landing := moveto.lands .shared ov.shared probe
  unfold settleShared btreeIsDeleted
  cases position : c.pCur with
  | none =>
    rw [← landed, position] at landing
    have noneShared : ov.shared = ∅ := landing
    simp only [Probe.pRes, Int.reduceNeg, Int.reduceEq, false_and, if_false, position,
      unplaced noneShared]
    exact .empty noneShared
  | some a =>
    rw [position] at landed
    rw [← landed] at landing
    have check := pRes_exact_eq_zero (moveto.lands .del ov.del (Probe.exact a))
    by_cases deleted : a ∈ ov.del
    · have here : moveto.land .del ov.del (Probe.exact a) = some a := by
        obtain ⟨x, there, same⟩ :=
          (moveto.lands .del ov.del (Probe.exact a)).match deleted (Probe.exact_eq.2 rfl)
        rw [there, Probe.exact_eq.1 same]
      simp only [check.2 deleted, asked, ne_eq, not_false_eq_true, and_self, if_true]
      exact (leaveDeleted_spec
        (c := { c with pCur := some a, pCurDel := moveto.land .del ov.del (Probe.exact a) })
        kept landed.symm deleted rfl here).1
    · have apart : (Probe.exact a).pRes (moveto.land .del ov.del (Probe.exact a)) ≠ 0 :=
        fun zero => deleted (check.1 zero)
      simp only [apart, false_and, if_false]
      exact .live a landed.symm ((Overlay.mem_live kept).2 ⟨landing.mem, deleted⟩)

/-- The search of the shared tree leaves the cursors as `SharedLanding` says. -/
theorem seekShared_landing (moveto : MovetoUnpacked α) (key : SearchKey α)
    (kept : ov.deleteAll = false) (asked : opcode ≠ .zero)
    (placed : ∀ x, c.pCurDel = some x → x ∈ ov.del) : let found := seekShared moveto ov key opcode c
    SharedLanding moveto ov key.probe found.1.pCur found.1.pCurDel found.2.1 := by
  unfold seekShared
  simp only [kept, Bool.false_eq_true, if_false]
  apply settleShared_landing kept asked rfl
  intro noneShared
  have unseen : ∀ record : Probe α, eqSeenIn record ov.shared = false := by
    intro record
    simp [eqSeenIn, noneShared]
  have unmoved : c.pCurDel = none := by
    cases there : c.pCurDel with
    | none => rfl
    | some x => exact absurd noneShared (Finset.ne_empty_of_mem (ov.del_subset (placed x there)))
  cases key with
  | intKey k => exact unmoved
  | idxKey record default_rc =>
    simp only [seekEqSeen, unseen, Bool.false_eq_true, false_and, if_false]
    exact unmoved

/-- Counting leaves the cursor inside the tree. -/
theorem countSameKey_mem {content : Finset α} {record : Probe α} (fuel : Nat) :
    ∀ {start : Option α}, (∀ x, start = some x → x ∈ content) →
      ∀ x, (btreeCursorCountSameKey d content record fuel start).2 = some x → x ∈ content := by
  induction fuel with
  | zero => exact fun within => within
  | succ fuel ih =>
    intro start within
    cases start with
    | none => exact within
    | some y =>
      rw [btreeCursorCountSameKey]
      split_ifs
      · exact ih fun x moved => (step_eq_some_iff.1 moved).1.1
      · exact within

/-- Counting leaves the cursor in its tree. -/
theorem countMatches_mem {content : Finset α} {record : Probe α} {default_rc res : Int}
    {landed : Option α} {moveOver : Bool} (within : ∀ x, landed = some x → x ∈ content) :
    ∀ x, (countMatches d content record default_rc landed res moveOver).2 = some x →
      x ∈ content := by
  refine countSameKey_mem _ fun x start => ?_
  split_ifs at start
  · cases landed with
    | none => cases start
    | some y => exact (step_eq_some_iff.1 (show step d content y = some x from start)).1.1
  · exact within x start

/-- The counting of matches leaves the deletion cursor on a deleted entry. -/
theorem seekEqSeen_placed {key : SearchKey α} {landed pCurDel : Option α}
    (placed : ∀ x, pCurDel = some x → x ∈ ov.del) :
    ∀ x, (seekEqSeen moveto ov key opcode landed pCurDel).2 = some x → x ∈ ov.del := by
  cases key with
  | intKey k => exact placed
  | idxKey record default_rc =>
    simp only [seekEqSeen]
    split_ifs
    · unfold seekCount
      generalize (if opcode.seeksUp then Dir.forward else Dir.backward) = d
      split_ifs
      · exact countMatches_mem fun x => moveto.land_mem
      · exact fun x => moveto.land_mem
    · exact placed

/-- The search of the shared tree, with or without a delete-all. -/
theorem seekShared_cases (moveto : MovetoUnpacked α) (key : SearchKey α) (asked : opcode ≠ .zero)
    (placed : ∀ x, c.pCurDel = some x → x ∈ ov.del) : let found := seekShared moveto ov key opcode c
    (ov.deleteAll = false ∧
      SharedLanding moveto ov key.probe found.1.pCur found.1.pCurDel found.2.1) ∨
    (ov.live = ∅ ∧ found.1.pCur = none ∧ (∀ x, found.1.pCurDel = some x → x ∈ ov.del) ∧
      found.2.1 = -1) := by
  cases flag : ov.deleteAll with
  | false => exact .inl ⟨rfl, seekShared_landing moveto key flag asked placed⟩
  | true =>
    simp only [seekShared, flag, if_true]
    exact .inr ⟨by simp [Overlay.live, flag], trivial, seekEqSeen_placed placed, trivial⟩

section

variable (sharp : probe.Sharp) (landing : Landed ov.shared probe (some a)) (deleted : a ∈ ov.del)

include sharp landing deleted

/-- What is not below the key is above a deleted entry next to it. -/
theorem lt_of_deleted {x : α} (inside : x ∈ ov.live) (notBehind : ¬ probe.Behind .forward x) :
    Dir.forward.lt a x := by
  refine (Dir.lt_or_gt (Overlay.ne_of_del deleted inside)).resolve_right fun sooner => ?_
  rcases pRes_cases probe a with ⟨order, -⟩ | ⟨order, -⟩ | ⟨order, -⟩
  · exact notBehind (Probe.Behind.of_not_lt (d := .forward) order (Dir.asymm sooner))
  · exact sharp.not_lt order notBehind sooner
  · exact notBehind (landing.ahead (d := .forward) order (Overlay.live_subset inside) sooner)

/-- Stepping up from a deleted entry next to the key leads to the first live entry above it. -/
theorem near_up {l : α} (next : step .forward ov.live a = some l) :
    Near ov.live probe .forward (some l) 1 := by
  obtain ⟨⟨live, above⟩, least⟩ := step_eq_some_iff.1 next
  have below : ∀ x ∈ ov.live, ¬ probe.Behind .forward x → Dir.forward.lt a x :=
    fun x inside => lt_of_deleted sharp landing deleted inside
  refine .ahead l live ?_ fun x inside notBehind => least x inside (below x inside notBehind)
  rcases pRes_cases probe a with ⟨order, -⟩ | ⟨order, -⟩ | ⟨order, -⟩
  · exact landing.behind (d := .forward) order (Overlay.live_subset live) above
  · have apart : probe.cmp l ≠ .eq := fun same => Dir.ne above (sharp a l order same)
    refine (Probe.behind_or_ahead apart).resolve_left fun behind => ?_
    exact (behind.of_not_lt (Dir.asymm above)).apart order
  · exact Probe.Ahead.of_not_lt (d := .forward) order (Dir.asymm above)

/-- When nothing live is left above a deleted entry next to the key, the last live entry below
it is the last one below the key. -/
theorem near_down (last : step .forward ov.live a = none) {l : α}
    (next : step .backward ov.live a = some l) :
    (∀ x ∈ ov.live, probe.Behind .forward x) ∧ Near ov.live probe .forward (some l) (-1) := by
  obtain ⟨⟨live, below⟩, greatest⟩ := step_eq_some_iff.1 next
  have allBehind : ∀ x ∈ ov.live, probe.Behind .forward x := by
    intro x inside
    by_contra notBehind
    exact step_eq_none_iff.1 last x inside (lt_of_deleted sharp landing deleted inside notBehind)
  refine ⟨allBehind, .behind l live (allBehind l live) fun x inside later => ?_⟩
  rcases Dir.lt_or_gt (d := .forward) (Overlay.ne_of_del deleted inside) with above | sooner
  · exact absurd above (step_eq_none_iff.1 last x inside)
  · exact absurd later (greatest x inside sooner)

end

section

variable (landing : SharedLanding moveto ov probe pCur pCurDel res)

include landing

/-- The search of the shared tree ends next to the key among the live entries. -/
theorem SharedLanding.near (sharp : probe.Sharp) : Near ov.live probe d pCur res := by
  have forward : Near ov.live probe .forward pCur res := by
    have lands := moveto.lands .shared ov.shared probe
    cases landing with
    | live a landed isLive =>
      rw [landed] at lands
      exact lands.near.restrict Overlay.live_subset isLive
    | up a l pCurDel landed deleted next beyond =>
      rw [landed] at lands
      exact near_up sharp lands deleted next
    | down a l pCurDel landed deleted last next beyond =>
      rw [landed] at lands
      exact (near_down sharp lands deleted last next).2
    | gone a pCurDel landed deleted noneLive within =>
      exact .nowhere (Finset.eq_empty_iff_forall_notMem.2 noneLive)
    | empty noneShared =>
      refine .nowhere (Finset.subset_empty.1 ?_)
      rw [← noneShared]
      exact Overlay.live_subset
  cases d with
  | forward => exact forward
  | backward => exact forward.flip

/-- The deletion cursor is left on a deleted entry. -/
theorem SharedLanding.placedDel : ∀ x, pCurDel = some x → x ∈ ov.del := by
  cases landing with
  | live a landed isLive => exact fun x => moveto.land_mem
  | up a l _ landed deleted next beyond | down a l _ landed deleted last next beyond =>
    exact fun x there => (beyond.within x there).1
  | gone a _ landed deleted noneLive within => exact within
  | empty noneShared => exact (by rintro x ⟨⟩)

/-- A live entry the seek landed on is where the shared cursor stays. -/
theorem SharedLanding.of_live
    (landed : moveto.land .shared ov.shared probe = some a) (isLive : a ∈ ov.live) :
    pCur = some a := by
  have notDeleted := Overlay.not_mem_del_of_live isLive
  cases landing with
  | live b landed' _ => exact landed'.symm.trans landed
  | up b l _ landed' deleted _ _ | down b l _ landed' deleted _ _ _
  | gone b _ landed' deleted _ _ =>
    cases landed'.symm.trans landed
    exact absurd deleted notDeleted
  | empty noneShared => exact absurd noneShared (Overlay.shared_ne_empty isLive)

/-- Below the key, with a live entry above it, the shared cursor is where the seek landed. -/
theorem SharedLanding.of_below (sharp : probe.Sharp)
    (there : pCur = some a)
    (below : probe.Behind .forward a) {l : α} (live : l ∈ ov.live)
    (above : probe.Ahead .forward l) : moveto.land .shared ov.shared probe = some a := by
  have lands := moveto.lands .shared ov.shared probe
  cases landing with
  | live b landed _ => exact landed.trans there
  | up b m _ landed deleted next _ =>
    rw [landed] at lands
    cases there
    have ahead := (near_up sharp lands deleted next).of_ahead.2.1
    exact absurd ahead below.not_ahead
  | down b m _ landed deleted last next _ =>
    rw [landed] at lands
    have behind := (near_down sharp lands deleted last next).1 l live
    exact absurd above behind.not_ahead
  | gone _ _ _ _ _ _ | empty _ => cases there

end

/-- The deletion cursor is not past anything the shared cursor has still to meet. -/
def DelReady (ov : Overlay α) (d : Dir) (pCur pCurDel : Option α) : Prop :=
  ∀ y, pCur = some y → ∀ x ∈ ov.del, d.lt y x → NotPast d pCurDel x

/-- On the first deleted entry to come the deletion cursor is ready. -/
theorem Beyond.ready {l : α} (beyond : Beyond ov d l pCurDel) : DelReady ov d (some l) pCurDel := by
  rintro y same x deleted later
  cases same
  exact beyond.notPast x deleted later

/-- A deletion cursor on the other side of the shared one has everything still to meet. -/
theorem Beyond.ready_flip {l z : α} (beyond : Beyond ov d l (some z)) :
    DelReady ov d.flip (some l) (some z) := by
  rintro y same x deleted later
  cases same
  refine ⟨z, rfl, fun past => ?_⟩
  rw [Dir.flip_lt] at later past
  exact Dir.asymm (Dir.trans later (beyond.within z rfl).2) past

/-- A deletion cursor that ran off the end behind a live entry left every deleted entry on the
other side of it. -/
theorem Beyond.lt_of_none {l : α} (beyond : Beyond ov d l none) (live : l ∈ ov.live) :
    ∀ x ∈ ov.del, d.lt x l := by
  intro x deleted
  refine (Dir.lt_or_gt (Overlay.ne_of_del deleted live)).resolve_right fun later => ?_
  obtain ⟨z, absurd, -⟩ := beyond.notPast x deleted later
  cases absurd

/-- A deletion cursor sought to the entry of the shared one is ready for either direction. -/
theorem ready_landed : DelReady ov d (some a) (moveto.land .del ov.del (Probe.exact a)) := by
  rintro y same x deleted later
  cases same
  exact (moveto.lands .del ov.del (Probe.exact a)).notPast deleted later

/-- Every live entry lies below the key and below every deleted entry, and the deletion cursor has
run off the end. -/
structure ForwardStuck (ov : Overlay α) (probe : Probe α) (pCurDel : Option α) : Prop where
  nowhere : pCurDel = none
  someLive : ∃ l, l ∈ ov.live
  before : ∀ l ∈ ov.live, probe.Behind .forward l
  beforeDel : ∀ l ∈ ov.live, ∀ x ∈ ov.del, l < x
  someDel : ∃ x, x ∈ ov.del

/-- The seek left a deleted entry upward, and the deletion cursor has run off the end. -/
structure BackwardStuck (ov : Overlay α) (probe : Probe α) (pCur pCurDel : Option α) (l : α) :
    Prop where
  nowhere : pCurDel = none
  there : pCur = some l
  live : l ∈ ov.live
  above : probe.Ahead .forward l
  least : ∀ m ∈ ov.live, probe.Ahead .forward m → l ≤ m
  beforeDel : ∀ x ∈ ov.del, x < l
  landed : ∃ a ∈ ov.del, Landed ov.shared probe (some a)

section

variable (sharp : probe.Sharp) (landing : SharedLanding moveto ov probe pCur pCurDel res)

include sharp landing

/-- The deletion cursor is ready for a forward scan, or stuck. -/
theorem SharedLanding.forward_settled :
    DelReady ov .forward pCur pCurDel ∨ ForwardStuck ov probe pCurDel := by
  have near : Near ov.live probe .forward pCur res := landing.near sharp
  cases landing with
  | live a landed isLive => exact .inl ready_landed
  | up a l _ landed deleted next beyond => exact .inl beyond.ready
  | down a l _ landed deleted last next beyond =>
    cases pCurDel with
    | some z => exact .inl beyond.ready_flip
    | none =>
      have lands := moveto.lands .shared ov.shared probe
      rw [landed] at lands
      have behind := (near_down sharp lands deleted last next).1
      obtain ⟨live, -, nearest⟩ := Near.of_behind (d := .forward) near
      refine .inr ⟨rfl, ⟨l, live⟩, behind, fun x inside y deleted' => ?_, a, deleted⟩
      have upTo : x ≤ l := not_lt.1 fun later =>
        (behind x inside).not_ahead (nearest x inside later)
      exact lt_of_le_of_lt upTo (beyond.lt_of_none live y deleted')
  | gone a _ landed deleted noneLive within | empty noneShared => exact .inl (by rintro y ⟨⟩)

/-- The deletion cursor is ready for a backward scan, or stuck. -/
theorem SharedLanding.backward_settled :
    DelReady ov .backward pCur pCurDel ∨ ∃ l, BackwardStuck ov probe pCur pCurDel l := by
  cases landing with
  | live a landed isLive => exact .inl ready_landed
  | up a l _ landed deleted next beyond =>
    cases pCurDel with
    | some z => exact .inl beyond.ready_flip
    | none =>
      have lands := moveto.lands .shared ov.shared probe
      rw [landed] at lands
      obtain ⟨live, ahead, nearest⟩ := (near_up sharp lands deleted next).of_ahead
      refine .inr ⟨l, rfl, rfl, live, ahead, fun m inside later => ?_, beyond.lt_of_none live,
        a, deleted, lands⟩
      exact not_lt.1 (nearest m inside fun behind => behind.not_ahead later)
  | down a l _ landed deleted last next beyond => exact .inl beyond.ready
  | gone a _ landed deleted noneLive within | empty noneShared => exact .inl (by rintro y ⟨⟩)

end

section

variable (landing : SharedLanding moveto ov probe pCur pCurDel res) (sharp : probe.Sharp)

include landing sharp

/-- With an entry above every live one, a seek that prefers to end above the key ends on a deleted
entry, and the cursors are stuck. -/
theorem SharedLanding.stuck_down (someLive : ∃ l, l ∈ ov.live)
    (before : ∀ l ∈ ov.live, probe.Behind .forward l)
    (beforeDel : ∀ l ∈ ov.live, ∀ x ∈ ov.del, l < x)
    (prefers : ∀ a ∈ ov.live, moveto.land .shared ov.shared probe ≠ some a) :
    ∃ l ∈ ov.live, pCur = some l ∧ pCurDel = none ∧ res = -1 := by
  obtain ⟨l, live⟩ := someLive
  have lands := moveto.lands .shared ov.shared probe
  cases landing with
  | live a landed isLive => exact absurd landed (prefers a isLive)
  | up a l' _ landed deleted next _ =>
    rw [landed] at lands
    obtain ⟨live', ahead, -⟩ := (near_up sharp lands deleted next).of_ahead
    exact absurd ahead (before l' live').not_ahead
  | down a l' del landed deleted last next beyond =>
    have live' := (step_eq_some_iff.1 next).1.1
    refine ⟨l', live', rfl, ?_, rfl⟩
    cases pCurDel with
    | none => rfl
    | some z =>
      obtain ⟨deleted', sooner⟩ := beyond.within z rfl
      exact absurd (beforeDel l' live' z deleted') (lt_asymm sooner)
  | gone a _ landed deleted noneLive _ => exact absurd live (noneLive l)
  | empty noneShared => exact absurd noneShared (Overlay.shared_ne_empty live)

/-- A seek that lands on a deleted entry with nothing deleted above the next live one ends there
without a deletion cursor. -/
theorem SharedLanding.stuck_up {l : α} (landed : moveto.land .shared ov.shared probe = some a)
    (deleted : a ∈ ov.del) (live : l ∈ ov.live) (above : probe.Ahead .forward l)
    (least : ∀ m ∈ ov.live, probe.Ahead .forward m → l ≤ m) (before : ∀ x ∈ ov.del, x < l) :
    pCur = some l ∧ pCurDel = none ∧ res = 1 := by
  have lands := moveto.lands .shared ov.shared probe
  cases landing with
  | live b landed' isLive =>
    cases landed.symm.trans landed'
    exact absurd deleted (Overlay.not_mem_del_of_live isLive)
  | up b m _ landed' deleted' next beyond =>
    rw [landed'] at lands
    obtain ⟨isLive, ahead, nearest⟩ := (near_up sharp lands deleted' next).of_ahead
    obtain rfl : m = l := by
      refine le_antisymm (not_lt.1 (nearest l live fun behind => ?_)) (least m isLive ahead)
      exact behind.not_ahead above
    refine ⟨rfl, ?_, rfl⟩
    cases pCurDel with
    | none => rfl
    | some z =>
      obtain ⟨isDeleted, later⟩ := beyond.within z rfl
      exact absurd later (lt_asymm (before z isDeleted))
  | down b m _ landed' deleted' last next beyond =>
    rw [landed'] at lands
    exact absurd above ((near_down sharp lands deleted' last next).1 l live).not_ahead
  | gone b _ landed' deleted' noneLive _ => exact absurd live (noneLive l)
  | empty noneShared => exact absurd noneShared (Overlay.shared_ne_empty live)

end

end Shared

end SQLumDash.Scan
