import Mathlib.Data.Finset.Card
import Mathlib.Logic.Function.Basic

/-!
# Packed arrays of keyed slots

The used slots come first and have distinct keys. A slot is removed by moving the last one into its
place. Loops count in a machine integer and may never meet their end, so a scan has a result only
where it ends.
-/

namespace Packed

open Function (update update_self update_of_ne)

variable {Slot Key : Type}

/-- The used slots have distinct keys. -/
def Distinct (key : Slot → Key) (slots : Nat → Slot) (count : Nat) : Prop :=
  ∀ i j, i < count → j < count → key (slots i) = key (slots j) → i = j

/-- A used slot has this content. -/
def Holds (slots : Nat → Slot) (count : Nat) (content : Slot) : Prop :=
  ∃ i < count, slots i = content

/-- The last slot moves into the place of another one. -/
def removeAt (empty : Slot) (slots : Nat → Slot) (count i : Nat) : Nat → Slot :=
  update (update slots i (slots (count - 1))) (count - 1) empty

variable {key : Slot → Key} {slots : Nat → Slot} {count i : Nat} {content new empty : Slot}

/-- Distinct keys of a set are no more than it has. -/
theorem Distinct.count_le (distinct : Distinct key slots count) (keys : Finset Key)
    (inside : ∀ j < count, key (slots j) ∈ keys) : count ≤ keys.card := by
  have injective : Set.InjOn (fun j => key (slots j)) (Finset.range count) := by
    intro j used k used' same
    exact distinct j k (Finset.mem_range.1 used) (Finset.mem_range.1 used') same
  have maps : Set.MapsTo (fun j => key (slots j)) (Finset.range count) keys := by
    intro j used
    exact inside j (Finset.mem_range.1 used)
  simpa using Finset.card_le_card_of_injOn _ maps injective

section Update

variable (distinct : Distinct key slots count) (same : key new = key (slots i))

include distinct same

/-- Keys stay distinct under an update in place. -/
theorem Distinct.update : Distinct key (Function.update slots i new) count := by
  have keys (j : Nat) : key (Function.update slots i new j) = key (slots j) := by
    by_cases here : j = i
    · rw [here, update_self, same]
    · rw [update_of_ne here]
  intro j k usedJ usedK equal
  rw [keys, keys] at equal
  exact distinct j k usedJ usedK equal

/-- The contents after an update in place. -/
theorem holds_update (used : i < count) :
    Holds (update slots i new) count content ↔
      content = new ∨ Holds slots count content ∧ key content ≠ key new := by
  constructor
  · rintro ⟨j, usedJ, rfl⟩
    by_cases here : j = i
    · rw [here, update_self]
      exact .inl rfl
    · rw [update_of_ne here]
      refine .inr ⟨⟨j, usedJ, rfl⟩, ?_⟩
      rw [same]
      exact fun equal => here (distinct j i usedJ used equal)
  · rintro (rfl | ⟨⟨j, usedJ, rfl⟩, other⟩)
    · exact ⟨i, used, update_self ..⟩
    · have elsewhere : j ≠ i := by
        rintro rfl
        exact other same.symm
      exact ⟨j, usedJ, update_of_ne elsewhere ..⟩

end Update

section Append

/-- The contents after an append. -/
theorem holds_append :
    Holds (update slots count new) (count + 1) content ↔
      content = new ∨ Holds slots count content := by
  constructor
  · rintro ⟨j, usedJ, rfl⟩
    by_cases last : j = count
    · rw [last, update_self]
      exact .inl rfl
    · rw [update_of_ne last]
      exact .inr ⟨j, by omega, rfl⟩
  · rintro (rfl | ⟨j, usedJ, rfl⟩)
    · exact ⟨count, Nat.lt_succ_self count, update_self ..⟩
    · exact ⟨j, Nat.lt_succ_of_lt usedJ, update_of_ne (Nat.ne_of_lt usedJ) ..⟩

/-- A fresh key may be appended. -/
theorem Distinct.append (distinct : Distinct key slots count)
    (fresh : ∀ j < count, key (slots j) ≠ key new) :
    Distinct key (Function.update slots count new) (count + 1) := by
  intro j k usedJ usedK equal
  by_cases lastJ : j = count
  · by_cases lastK : k = count
    · rw [lastJ, lastK]
    · rw [lastJ, update_self, update_of_ne lastK] at equal
      exact absurd equal.symm (fresh k (by omega))
  · by_cases lastK : k = count
    · rw [lastK, update_self, update_of_ne lastJ] at equal
      exact absurd equal (fresh j (by omega))
    · rw [update_of_ne lastJ, update_of_ne lastK] at equal
      exact distinct j k (by omega) (by omega) equal

end Append

section Remove

/-- The slot of the removed one shows what was last. -/
theorem removeAt_of_lt {j : Nat} (less : j < count - 1) :
    removeAt empty slots count i j = if j = i then slots (count - 1) else slots j := by
  rw [removeAt, update_of_ne (Nat.ne_of_lt less), Function.update_apply]

/-- The last slot is cleared. -/
theorem removeAt_last : removeAt empty slots count i (count - 1) = empty :=
  update_self ..

/-- Slots behind the end stay. -/
theorem removeAt_of_le {j : Nat} (le : count ≤ j) (used : i < count) :
    removeAt empty slots count i j = slots j := by
  rw [removeAt, update_of_ne (by omega), update_of_ne (by omega)]

/-- Keys stay distinct. -/
theorem Distinct.removeAt (distinct : Distinct key slots count) (used : i < count) :
    Distinct key (removeAt empty slots count i) (count - 1) := by
  intro j k usedJ usedK equal
  rw [removeAt_of_lt usedJ, removeAt_of_lt usedK] at equal
  have last : count - 1 < count := by omega
  split at equal
  · split at equal
    · omega
    · have := distinct (count - 1) k last (by omega) equal
      omega
  · split at equal
    · have := distinct j (count - 1) (by omega) last equal
      omega
    · exact distinct j k (by omega) (by omega) equal

/-- The contents without the removed one. -/
theorem holds_removeAt (distinct : Distinct key slots count) (used : i < count) :
    Holds (removeAt empty slots count i) (count - 1) content ↔
      Holds slots count content ∧ key content ≠ key (slots i) := by
  have last : count - 1 < count := by omega
  constructor
  · rintro ⟨j, usedJ, rfl⟩
    rw [removeAt_of_lt usedJ]
    split
    · refine ⟨⟨count - 1, last, rfl⟩, fun equal => ?_⟩
      have := distinct (count - 1) i last used equal
      omega
    · next elsewhere =>
      exact ⟨⟨j, by omega, rfl⟩, fun equal => elsewhere (distinct j i (by omega) used equal)⟩
  · rintro ⟨⟨j, usedJ, rfl⟩, other⟩
    have elsewhere : j ≠ i := by
      rintro rfl
      exact other rfl
    by_cases moved : j = count - 1
    · refine ⟨i, by omega, ?_⟩
      rw [removeAt_of_lt (by omega), if_pos rfl, moved]
    · refine ⟨j, by omega, ?_⟩
      rw [removeAt_of_lt (by omega), if_neg elsewhere]

end Remove

section Scan

/-- A loop that counts up in a machine integer until its end or its body stops it. -/
def scan (modulus bound : Nat) (stop : Nat → Bool) : Nat → Nat → Option Nat
  | 0, _ => none
  | fuel + 1, i =>
    if i < bound ∧ stop i = false then scan modulus bound stop fuel ((i + 1) % modulus) else some i

/-- A scan ends at the first index that stops it or is the bound, if the integer can hold that. -/
theorem scan_eq {modulus bound : Nat} {stop : Nat → Bool} {target : Nat} (reached : target < modulus)
    (ends : bound ≤ target ∨ stop target = true) :
    ∀ {fuel i : Nat}, i ≤ target → target - i < fuel →
      (∀ j, i ≤ j → j < target → j < bound ∧ stop j = false) →
      scan modulus bound stop fuel i = some target := by
  intro fuel
  induction fuel with
  | zero => exact fun _ less => absurd less (Nat.not_lt_zero _)
  | succ fuel ih =>
    intro i le enough passes
    rw [scan]
    rcases Nat.lt_or_eq_of_le le with less | rfl
    · rw [if_pos (passes i (Nat.le_refl i) less), Nat.mod_eq_of_lt (by omega)]
      exact ih (by omega) (by omega) fun j from' below => passes j (by omega) below
    · have stopped : ¬(i < bound ∧ stop i = false) := by
        rintro ⟨below, passing⟩
        rcases ends with past | stops
        · omega
        · rw [stops] at passing
          cases passing
      rw [if_neg stopped]

end Scan

end Packed
