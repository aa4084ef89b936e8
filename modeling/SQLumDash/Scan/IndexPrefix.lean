import Mathlib.Data.List.Lex
import SQLumDash.Scan.FullScan
import SQLumDash.Scan.PrefixForward
import SQLumDash.Scan.PrefixBackward

/-!
# Index scans by a prefix of the columns

An index entry is the list of its columns, the rowid last, in lexicographic order. A search
key of fewer columns is compared with the leading columns of an entry, so the entries that
agree with it are the ones that have it as a prefix.
-/

namespace SQLumDash.Scan

open OrderedCursor

variable {β : Type*} [LinearOrder β]

/-- Smaller leading columns make a smaller entry. -/
theorem lt_of_take_lt (n : Nat) : ∀ {a b : List β}, a.take n < b.take n → a < b := by
  induction n with
  | zero => intro a b below; cases below
  | succ n ih =>
    intro a b below
    cases a with
    | nil =>
      cases b with
      | nil => exact below
      | cons y b => exact .nil
    | cons x a =>
      cases b with
      | nil => cases below
      | cons y b =>
        cases below with
        | cons rest => exact .cons (ih rest)
        | rel first => exact .rel first

/-- Leading columns are ordered as the entries are. -/
theorem take_le_take (n : Nat) {a b : List β} (below : a ≤ b) : a.take n ≤ b.take n :=
  not_lt.1 fun above => not_lt.2 below (lt_of_take_lt n above)

/-- The comparison of an index entry with a search key of the leading columns. -/
def Probe.ofPrefix (p : List β) : Probe (List β) where
  cmp x := (Probe.exact p).cmp (x.take p.length)
  lt_of_le _ _ below := (Probe.exact p).lt_of_le _ _ (take_le_take _ below)
  gt_of_le _ _ below := (Probe.exact p).gt_of_le _ _ (take_le_take _ below)

/-- Entries that agree with a search key are those it is a prefix of. -/
theorem ofPrefix_eq {p x : List β} : (Probe.ofPrefix p).cmp x = .eq ↔ p <+: x := by
  rw [List.prefix_iff_eq_take]
  exact Probe.exact_eq.trans eq_comm

/-- The scan of an index for a prefix shows exactly the view's entries with the prefix, in index
order and each once, wherever the seeks in the single trees land, just when the input is not
one of the failing ones. -/
theorem prefixScan_correct_iff (ov : Overlay (List β)) (p : List β) :
    ((∀ (moveto : MovetoUnpacked (List β)) (c : BtCursor (List β)), Placed ov c →
      ∃ out, prefixScan moveto ov (.ofPrefix p) .seekGE c = some out ∧
        Lists ov .forward (p <+: ·) out) ↔ ¬ PrefixForwardFails ov (.ofPrefix p)) ∧
    ((∀ (moveto : MovetoUnpacked (List β)) (c : BtCursor (List β)), Placed ov c →
      ∃ out, prefixScan moveto ov (.ofPrefix p) .seekLE c = some out ∧
        Lists ov .backward (p <+: ·) out) ↔ ¬ PrefixBackwardFails ov (.ofPrefix p)) := by
  have block : (p <+: ·) = fun x => (Probe.ofPrefix p).cmp x = .eq := by
    funext x
    exact propext ofPrefix_eq.symm
  rw [block]
  exact ⟨prefixForward_iff, prefixBackward_iff⟩

/-- The final `eqSeen` of a prefix seek counts a match in the view, whichever of its trees it is
in. -/
theorem eqSeen_ne_zero_iff {α : Type*} [LinearOrder α] (moveto : MovetoUnpacked α) (ov : Overlay α)
    (record : Probe α) (opcode : Opcode) (c : BtCursor α) :
    (sqlite3BtreeMovetoUnpackedAll moveto ov (.idxKey record opcode.direction) opcode c).2.2 ≠ 0 ↔
      hasMatch record ov.view := by
  have shared := seekShared_eqSeen moveto ov record opcode c
  have ins : SearchKey.eqSeenIns (.idxKey record opcode.direction) ov.ins =
      decide (hasMatch record ov.ins) := rfl
  have inView : hasMatch record ov.view ↔ hasMatch record ov.live ∨ hasMatch record ov.ins := by
    simp only [hasMatch, Overlay.mem_view, or_and_right, exists_or]
  have counts : ∀ b : Bool, b.toNat = 0 ↔ b = false := by decide
  dsimp only [sqlite3BtreeMovetoUnpackedAll]
  rw [shared, ins, inView, ne_eq, Nat.add_eq_zero_iff, counts, counts, decide_eq_false_iff_not,
    decide_eq_false_iff_not, not_and_or, not_not, not_not]

/-- `eqSeen` tells whether the view has an entry with the prefix, after `OP_SeekGE` with
`default_rc` 1 and after `OP_SeekLE` with `default_rc` -1, wherever the seeks in the single trees
land. -/
theorem eqSeen_iff_view_has_prefix (moveto : MovetoUnpacked (List β)) (ov : Overlay (List β))
    (p : List β) (c : BtCursor (List β)) :
    ((sqlite3BtreeMovetoUnpackedAll moveto ov (.idxKey (.ofPrefix p) 1) .seekGE c).2.2 ≠ 0 ↔
      ∃ x ∈ ov.view, p <+: x) ∧
    ((sqlite3BtreeMovetoUnpackedAll moveto ov (.idxKey (.ofPrefix p) (-1)) .seekLE c).2.2 ≠ 0 ↔
      ∃ x ∈ ov.view, p <+: x) := by
  have entries : hasMatch (.ofPrefix p) ov.view ↔ ∃ x ∈ ov.view, p <+: x := by
    simp only [hasMatch, ofPrefix_eq]
  rw [← entries]
  exact ⟨eqSeen_ne_zero_iff moveto ov _ .seekGE c, eqSeen_ne_zero_iff moveto ov _ .seekLE c⟩

/-- The index with the entry of row 1 in the shared tree and that of row 2 inserted, both of
column value 1. -/
def twoOfOneValue : Overlay (List Int) where
  shared := {[1, 1]}
  ins := {[1, 2]}
  del := ∅
  deleteAll := false
  del_subset := by decide
  ins_disjoint := by decide

/-- `OP_SeekGE` with the value 1 loses the entry of row 1. -/
theorem prefixScan_loses_entry :
    let scan := prefixScan (.ofSide fun _ => .forward) twoOfOneValue (.ofPrefix [1]) .seekGE
      ⟨none, none, none, .useShared⟩
    scan = some [⟨.useTrans, [1, 2]⟩] ∧
      ¬ ∃ out, scan = some out ∧ Lists twoOfOneValue .forward ([1] <+: ·) out := by
  intro scan
  have shown : scan = some [⟨.useTrans, [1, 2]⟩] := by decide +kernel
  refine ⟨shown, ?_⟩
  rintro ⟨out, scanned, lists⟩
  cases shown.symm.trans scanned
  have live : [1, 1] ∈ twoOfOneValue.live := by decide
  exact not_lists_of_lost (x := [1, 1]) (.inl live) (by decide) (by decide) lists

end SQLumDash.Scan
