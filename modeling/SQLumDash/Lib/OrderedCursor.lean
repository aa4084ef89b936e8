import Mathlib.Data.Finset.Max
import Mathlib.Data.Finset.Card
import Mathlib.Order.Defs.LinearOrder
import Mathlib.Tactic.Order

/-!
# Cursors over finite ordered sets

A finite set is walked in either direction. A cursor is the element it stands on, or nothing. Each
direction has one strict order, so that facts are proved once for both.
-/

namespace OrderedCursor

/-- The direction of a walk. -/
inductive Dir where
  | forward
  | backward
  deriving DecidableEq, Repr

namespace Dir

variable {α : Type*} [LinearOrder α] {d : Dir} {a b c : α}

/-- The opposite direction. -/
def flip : Dir → Dir
  | forward => backward
  | backward => forward

/-- The sign of a direction. -/
def sign : Dir → Int
  | forward => 1
  | backward => -1

/-- `a` is met before `b`. -/
def lt (d : Dir) (a b : α) : Prop :=
  match d with
  | forward => a < b
  | backward => b < a

instance (d : Dir) (a b : α) : Decidable (d.lt a b) :=
  match d with
  | forward => inferInstanceAs (Decidable (a < b))
  | backward => inferInstanceAs (Decidable (b < a))

/-- No element is before itself. -/
@[simp] theorem irrefl (d : Dir) (a : α) : ¬ d.lt a a := by
  cases d <;> simp only [lt, lt_self_iff_false, not_false_eq_true]

/-- The order is transitive. -/
theorem trans (first : d.lt a b) (second : d.lt b c) : d.lt a c := by
  cases d <;> simp only [lt] at * <;> order

/-- The order is asymmetric. -/
theorem asymm (first : d.lt a b) : ¬ d.lt b a := by
  cases d <;> simp only [lt] at * <;> order

/-- Ordered elements differ. -/
theorem ne (first : d.lt a b) : a ≠ b := by
  rintro rfl
  exact irrefl d a first

/-- Two different elements are met in one order or the other. -/
theorem lt_or_gt (apart : a ≠ b) : d.lt a b ∨ d.lt b a := by
  cases d <;> simp only [lt]
  · exact lt_or_gt_of_ne apart
  · exact lt_or_gt_of_ne apart.symm

/-- The order is total. -/
theorem not_lt_iff : ¬ d.lt a b ↔ a = b ∨ d.lt b a := by
  cases d <;> simp only [lt, not_lt, le_iff_lt_or_eq]
  · tauto
  · tauto

/-- The order is total on distinct elements. -/
theorem lt_of_not_lt_of_ne (notBefore : ¬ d.lt a b) (apart : a ≠ b) : d.lt b a :=
  (not_lt_iff.1 notBefore).resolve_left apart

/-- Not before and different is after. -/
theorem not_lt_and_ne_iff : ¬ d.lt a b ∧ a ≠ b ↔ d.lt b a := by
  rw [not_lt_iff]
  constructor
  · rintro ⟨rfl | later, apart⟩
    · exact absurd rfl apart
    · exact later
  · exact fun later => ⟨.inr later, (ne later).symm⟩

/-- Before something that is not after `c` is before `c`. -/
theorem lt_of_lt_of_not_lt (first : d.lt a b) (second : ¬ d.lt c b) : d.lt a c := by
  rcases not_lt_iff.1 second with same | later
  · exact same ▸ first
  · exact trans first later

/-- A chain with a weak step first. -/
theorem lt_of_not_lt_of_lt (first : ¬ d.lt b a) (second : d.lt b c) : d.lt a c := by
  rcases not_lt_iff.1 first with same | earlier
  · exact same ▸ second
  · exact trans earlier second

/-- Two weak steps. -/
theorem not_lt_trans (first : ¬ d.lt b a) (second : ¬ d.lt c b) : ¬ d.lt c a :=
  fun later => second (lt_of_lt_of_not_lt later first)

/-- The other direction. -/
@[simp] theorem flip_lt : d.flip.lt a b ↔ d.lt b a := by
  cases d <;> exact Iff.rfl

end Dir

section Walk

variable {α : Type*} [LinearOrder α]

/-- The first element of a set in a direction. -/
def first (d : Dir) (t : Finset α) : Option α :=
  if present : t.Nonempty then
    match d with
    | .forward => some (t.min' present)
    | .backward => some (t.max' present)
  else
    none

/-- The next element of a set after `c`. -/
def step (d : Dir) (t : Finset α) (c : α) : Option α := first d (t.filter (d.lt c))

/-- Moving a cursor one element on. -/
def advance (d : Dir) (t : Finset α) (cursor : Option α) : Option α := cursor.bind (step d t)

/-- Moving a cursor on while its element satisfies `p`. -/
def advanceWhile (d : Dir) (t : Finset α) (p : α → Bool) : Nat → Option α → Option α
  | 0, cursor => cursor
  | _ + 1, none => none
  | fuel + 1, some c => if p c then advanceWhile d t p fuel (step d t c) else some c

variable {d : Dir} {t : Finset α} {x c bound : α}

/-- The first element is the least. -/
theorem first_eq_some_iff : first d t = some x ↔ x ∈ t ∧ ∀ y ∈ t, ¬ d.lt y x := by
  unfold first
  split_ifs with present
  · cases d with
    | forward =>
      simp only [Option.some.injEq, Dir.lt, not_lt]
      constructor
      · rintro rfl
        exact ⟨t.min'_mem present, fun y member => t.min'_le y member⟩
      · rintro ⟨member, least⟩
        exact le_antisymm (t.min'_le x member) (least _ (t.min'_mem present))
    | backward =>
      simp only [Option.some.injEq, Dir.lt, not_lt]
      constructor
      · rintro rfl
        exact ⟨t.max'_mem present, fun y member => t.le_max' y member⟩
      · rintro ⟨member, greatest⟩
        exact le_antisymm (greatest _ (t.max'_mem present)) (t.le_max' x member)
  · constructor
    · intro absurd
      cases absurd
    · rintro ⟨member, -⟩
      exact absurd ⟨x, member⟩ present

/-- An empty set has no first element. -/
theorem first_eq_none_iff : first d t = none ↔ ∀ y, y ∉ t := by
  unfold first
  split_ifs with present
  · constructor
    · intro contradiction
      cases d <;> cases contradiction
    · intro empty
      obtain ⟨y, member⟩ := present
      exact absurd member (empty y)
  · simpa [Finset.not_nonempty_iff_eq_empty, Finset.eq_empty_iff_forall_notMem] using present

/-- The next element is the least after the cursor. -/
theorem step_eq_some_iff :
    step d t c = some x ↔ (x ∈ t ∧ d.lt c x) ∧ ∀ y ∈ t, d.lt c y → ¬ d.lt y x := by
  simp only [step, first_eq_some_iff, Finset.mem_filter, and_imp]

/-- Nothing is after the cursor. -/
theorem step_eq_none_iff : step d t c = none ↔ ∀ y ∈ t, ¬ d.lt c y := by
  simp only [step, first_eq_none_iff, Finset.mem_filter, not_and]

/-- The first element with a property has it. -/
theorem first_filter_mem {p : α → Prop} [DecidablePred p] (found : first d (t.filter p) = some x) :
    x ∈ t ∧ p x := Finset.mem_filter.1 (first_eq_some_iff.1 found).1

/-- Properties that agree have one first element. -/
theorem first_filter_congr {p q : α → Prop} [DecidablePred p] [DecidablePred q]
    (same : ∀ y ∈ t, (p y ↔ q y)) : first d (t.filter p) = first d (t.filter q) := by
  rw [Finset.filter_congr same]

/-- Some element of a nonempty set comes first. -/
theorem exists_first (member : x ∈ t) : ∃ y, first d t = some y := by
  cases found : first d t with
  | none => exact absurd member (first_eq_none_iff.1 found x)
  | some y => exact ⟨y, rfl⟩

/-- Walking on shortens what lies ahead. -/
theorem card_ahead_lt (moved : step d t c = some x) :
    (t.filter (d.lt x)).card < (t.filter (d.lt c)).card := by
  obtain ⟨⟨member, later⟩, -⟩ := step_eq_some_iff.1 moved
  apply Finset.card_lt_card
  rw [Finset.ssubset_iff_of_subset]
  · exact ⟨x, Finset.mem_filter.2 ⟨member, later⟩, by simp⟩
  · intro y ahead
    obtain ⟨inside, after⟩ := Finset.mem_filter.1 ahead
    exact Finset.mem_filter.2 ⟨inside, Dir.trans later after⟩

/-- A cursor catches up with a bound. -/
theorem advanceWhile_lt (behind : d.lt c bound) (fuel : Nat)
    (enough : (t.filter (d.lt c)).card < fuel) :
    advanceWhile d t (fun y => d.lt y bound) fuel (some c) =
      first d (t.filter fun y => ¬ d.lt y bound) := by
  induction fuel generalizing c with
  | zero => omega
  | succ fuel ih =>
    simp only [advanceWhile, behind, decide_true, if_true]
    have ahead : ∀ y ∈ t, ¬ d.lt y bound → d.lt c y := fun y _ notBefore =>
      Dir.lt_of_lt_of_not_lt behind notBefore
    cases moved : step d t c with
    | none =>
      have stop : first d (t.filter fun y => ¬ d.lt y bound) = none := by
        rw [first_eq_none_iff]
        intro y member
        obtain ⟨inside, notBefore⟩ := Finset.mem_filter.1 member
        exact step_eq_none_iff.1 moved y inside (ahead y inside notBefore)
      rw [stop]
      cases fuel <;> rfl
    | some next =>
      have shorter := card_ahead_lt moved
      obtain ⟨⟨inside, later⟩, least⟩ := step_eq_some_iff.1 moved
      by_cases still : d.lt next bound
      · exact ih still (by omega)
      · have stop : first d (t.filter fun y => ¬ d.lt y bound) = some next := by
          rw [first_eq_some_iff]
          refine ⟨Finset.mem_filter.2 ⟨inside, still⟩, fun y member => ?_⟩
          obtain ⟨within, notBefore⟩ := Finset.mem_filter.1 member
          exact least y within (ahead y within notBefore)
        rw [stop]
        cases fuel with
        | zero => omega
        | succ fuel => simp only [advanceWhile, still, decide_false, Bool.false_eq_true, if_false]

/-- A cursor that is not before the bound stays. -/
theorem advanceWhile_of_not_lt (caughtUp : ¬ d.lt c bound) (fuel : Nat) :
    advanceWhile d t (fun y => d.lt y bound) fuel (some c) = some c := by
  cases fuel with
  | zero => rfl
  | succ fuel => simp only [advanceWhile, caughtUp, decide_false, Bool.false_eq_true, if_false]

/-- A move ends in the set. -/
theorem advance_mem {cursor : Option α} (moved : advance d t cursor = some x) : x ∈ t := by
  obtain ⟨y, -, stepped⟩ := Option.bind_eq_some_iff.1 moved
  exact (step_eq_some_iff.1 stepped).1.1

end Walk

end OrderedCursor
