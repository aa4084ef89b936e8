import Mathlib.Data.Multiset.Filter
import Mathlib.Data.Finset.Range
import Mathlib.Data.Finset.Card
import Mathlib.Tactic.SplitIfs

/-!
# Circular probing

Slots `0 .. n-1` form a ring. A lookup walks forward from the home of an element until it meets an
empty slot. Only occupancy and homes matter here.
-/

namespace Probing

/-- The slot after `i` on a ring of `n` slots. -/
def next (n i : Nat) : Nat := (i + 1) % n

/-- The slot before `i` on a ring of `n` slots. -/
def prev (n i : Nat) : Nat := (i + n - 1) % n

/-- The forward steps from `a` to `b` on a ring of `n` slots. -/
def dist (n a b : Nat) : Nat := (b + n - a) % n

variable {n a b i j : Nat}

/-- Stepping forward wraps exactly at the last slot. -/
theorem next_eq_ite (bound : i < n) : next n i = if i + 1 = n then 0 else i + 1 := by
  unfold next
  split_ifs with last
  · rw [last, Nat.mod_self]
  · exact Nat.mod_eq_of_lt (by omega)

/-- Stepping back wraps exactly at the first slot. -/
theorem prev_eq_ite (bound : i < n) : prev n i = if i = 0 then n - 1 else i - 1 := by
  unfold prev
  split_ifs with first
  · rw [first, Nat.zero_add]
    exact Nat.mod_eq_of_lt (by omega)
  · rw [show i + n - 1 = i - 1 + n by omega, Nat.add_mod_right]
    exact Nat.mod_eq_of_lt (by omega)

/-- A distance is the difference, or that plus one turn. -/
theorem dist_eq_ite (left : a < n) (right : b < n) :
    dist n a b = if a ≤ b then b - a else b + n - a := by
  unfold dist
  split_ifs with ordered
  · rw [show b + n - a = b - a + n by omega, Nat.add_mod_right]
    exact Nat.mod_eq_of_lt (by omega)
  · exact Nat.mod_eq_of_lt (by omega)

/-- The next slot stays on the ring. -/
theorem next_lt (bound : i < n) : next n i < n := Nat.mod_lt _ (by omega)

/-- The previous slot stays on the ring. -/
theorem prev_lt (bound : i < n) : prev n i < n := Nat.mod_lt _ (by omega)

/-- Every distance is less than one turn. -/
theorem dist_lt (right : b < n) : dist n a b < n := Nat.mod_lt _ (by omega)

/-- Distance zero identifies the slots. -/
theorem dist_eq_zero (left : a < n) (right : b < n) : dist n a b = 0 ↔ b = a := by
  rw [dist_eq_ite left right]
  split_ifs <;> omega

/-- Slots at one distance from an origin are the same. -/
theorem dist_inj {c : Nat} (origin : c < n) (left : a < n) (right : b < n)
    (same : dist n c a = dist n c b) : a = b := by
  rw [dist_eq_ite origin left, dist_eq_ite origin right] at same
  split_ifs at same <;> omega

/-- A forward step adds one until it closes the turn. -/
theorem dist_next (left : a < n) (right : b < n) :
    dist n a (next n b) = if dist n a b + 1 = n then 0 else dist n a b + 1 := by
  rw [dist_eq_ite left (next_lt right), dist_eq_ite left right, next_eq_ite right]
  split_ifs <;> omega

/-- A step back takes one off unless it is zero. -/
theorem dist_prev (left : a < n) (right : b < n) (moved : b ≠ a) :
    dist n a (prev n b) = dist n a b - 1 := by
  rw [dist_eq_ite left (prev_lt right), dist_eq_ite left right, prev_eq_ite right]
  split_ifs <;> omega

/-- The slot before the origin is the farthest one from it. -/
theorem dist_prev_self (bound : i < n) : dist n i (prev n i) = n - 1 := by
  rw [dist_eq_ite bound (prev_lt bound), prev_eq_ite bound]
  split_ifs <;> omega

/-- A walk from `a` to `b` meets `j` before `c` exactly when they come in this order from `c`. -/
theorem dist_le_iff_between {c : Nat} (origin : c < n) (left : a < n) (middle : j < n)
    (right : b < n) (ordered : dist n c a ≤ dist n c b) :
    dist n a j ≤ dist n a b ↔ dist n c a ≤ dist n c j ∧ dist n c j ≤ dist n c b := by
  rw [dist_eq_ite origin left, dist_eq_ite origin right] at ordered
  rw [dist_eq_ite left middle, dist_eq_ite left right, dist_eq_ite origin left,
    dist_eq_ite origin middle, dist_eq_ite origin right]
  split_ifs at ordered ⊢ <;> omega

/-- A walk that does not meet `c` is ordered from `c`. -/
theorem dist_le_of_avoids {c : Nat} (origin : c < n) (left : a < n) (right : b < n)
    (avoids : ¬ dist n a c ≤ dist n a b) : dist n c a ≤ dist n c b := by
  rw [dist_eq_ite left origin, dist_eq_ite left right] at avoids
  rw [dist_eq_ite origin left, dist_eq_ite origin right]
  split_ifs at avoids ⊢ <;> omega

/-- Going on past `a` from `c` meets `j` before `c`. -/
theorem dist_lt_of_le {c : Nat} (origin : c < n) (left : a < n) (middle : j < n) (apart : a ≠ c)
    (ordered : dist n c a ≤ dist n c j) : dist n a j < dist n a c := by
  rw [dist_eq_ite origin left, dist_eq_ite origin middle] at ordered
  rw [dist_eq_ite left middle, dist_eq_ite left origin]
  split_ifs at ordered ⊢ <;> omega

/-- Away from the origin a forward step adds one. -/
theorem dist_next_of_ne (left : a < n) (right : b < n) (moved : next n b ≠ a) :
    dist n a (next n b) = dist n a b + 1 := by
  have step := dist_next left right
  split_ifs at step with closed
  · exact absurd ((dist_eq_zero left (next_lt right)).1 step) moved
  · exact step

/-- A walk that has seen every slot before `b`, and `b`. -/
theorem visit_next {P : Nat → Prop} (origin : a < n) (bound : b < n) (moved : next n b ≠ a)
    (visited : ∀ j < n, dist n a j < dist n a b → P j) (here : P b) :
    ∀ j < n, dist n a j < dist n a (next n b) → P j := by
  intro j target near
  rw [dist_next_of_ne origin bound moved] at near
  rcases Nat.lt_succ_iff_lt_or_eq.1 near with earlier | same
  · exact visited j target earlier
  · rw [dist_inj origin target bound same]
    exact here

/-- A walk that closes the turn has seen every slot. -/
theorem visit_all {P : Nat → Prop} (origin : a < n) (bound : b < n) (closed : next n b = a)
    (visited : ∀ j < n, dist n a j < dist n a b → P j) (here : P b) : ∀ j < n, P j := by
  intro j target
  have zero := (dist_eq_zero origin (next_lt bound)).2 closed
  rw [dist_next origin bound] at zero
  have farthest : dist n a b + 1 = n := by
    split_ifs at zero with farthest
    exact farthest
  have short := dist_lt (a := a) target
  rcases Nat.lt_or_ge (dist n a j) (dist n a b) with earlier | later
  · exact visited j target earlier
  · rw [dist_inj origin target bound (by omega)]
    exact here

/-- Every occupied slot is reached from its home through occupied slots. -/
def Reachable (n : Nat) (occupied : Nat → Bool) (home : Nat → Nat) : Prop :=
  ∀ i < n, occupied i = true →
    home i < n ∧ ∀ j < n, dist n (home i) j ≤ dist n (home i) i → occupied j = true

namespace Reachable

variable {occupied : Nat → Bool} {home : Nat → Nat} {empty hole source : Nat}

section

variable (reach : Reachable n occupied home)

include reach

section

variable (origin : empty < n) (vacant : occupied empty = false) (bound : i < n)
  (used : occupied i = true)

include origin vacant bound used

/-- Seen from an empty slot, no element lies before its home. -/
theorem home_le : dist n empty (home i) ≤ dist n empty i := by
  obtain ⟨homeBound, path⟩ := reach i bound used
  apply dist_le_of_avoids origin homeBound bound
  intro meets
  have contradiction := path empty origin meets
  rw [vacant] at contradiction
  cases contradiction

/-- The slots between a home and its element are occupied. -/
theorem path_occupied (target : j < n) (lower : dist n empty (home i) ≤ dist n empty j)
    (upper : dist n empty j ≤ dist n empty i) : occupied j = true := by
  obtain ⟨homeBound, path⟩ := reach i bound used
  have ordered := reach.home_le origin vacant bound used
  exact path j target ((dist_le_iff_between origin homeBound target bound ordered).2 ⟨lower, upper⟩)

end

/-- A free slot at the end of an occupied path may be filled. -/
theorem store {occupied' : Nat → Bool} {home' : Nat → Nat} (homeBound : home' i < n)
    (path : ∀ j < n, dist n (home' i) j < dist n (home' i) i → occupied j = true)
    (used : occupied' i = true) (others : ∀ j, j ≠ i → occupied' j = occupied j ∧ home' j = home j) :
    Reachable n occupied' home' := by
  have grows : ∀ j, occupied j = true → occupied' j = true := by
    intro j before
    by_cases same : j = i
    · rw [same, used]
    · rw [(others j same).1, before]
  intro k bound stored
  by_cases same : k = i
  · subst same
    refine ⟨homeBound, fun j target near => ?_⟩
    by_cases final : j = k
    · rw [final, used]
    · apply grows j
      apply path j target
      apply lt_of_le_of_ne near
      intro equal
      exact final (dist_inj homeBound target bound equal)
  · obtain ⟨sameUse, sameHome⟩ := others k same
    obtain ⟨bounded, walk⟩ := reach k bound (sameUse ▸ stored)
    rw [sameHome]
    exact ⟨bounded, fun j target near => grows j (walk j target near)⟩

/-- An element may move back along its own path. -/
theorem fill (home' : Nat → Nat) (sourceBound : source < n) (used : occupied source = true)
    (holeBound : hole < n) (onPath : dist n (home source) hole ≤ dist n (home source) source)
    (moved : home' hole = home source) (others : ∀ j, j ≠ hole → home' j = home j) :
    Reachable n occupied home' := by
  intro k bound stored
  by_cases same : k = hole
  · subst same
    rw [moved]
    obtain ⟨homeBound, path⟩ := reach source sourceBound used
    exact ⟨homeBound, fun j target near => path j target (near.trans onPath)⟩
  · rw [others k same]
    exact reach k bound stored

/-- A slot on no other element's path may be emptied. -/
theorem clear {occupied' : Nat → Bool} {home' : Nat → Nat} (hole : Nat)
    (unused : ∀ i < n, i ≠ hole → occupied i = true → ¬ dist n (home i) hole ≤ dist n (home i) i)
    (vacant : occupied' hole = false)
    (others : ∀ j, j ≠ hole → occupied' j = occupied j ∧ home' j = home j) :
    Reachable n occupied' home' := by
  intro k bound stored
  by_cases same : k = hole
  · rw [same, vacant] at stored
    cases stored
  · obtain ⟨sameUse, sameHome⟩ := others k same
    rw [sameUse] at stored
    obtain ⟨homeBound, path⟩ := reach k bound stored
    rw [sameHome]
    refine ⟨homeBound, fun j target near => ?_⟩
    by_cases final : j = hole
    · exact absurd (final ▸ near) (unused k bound same stored)
    · rw [(others j final).1]
      exact path j target near

end

end Reachable

end Probing
