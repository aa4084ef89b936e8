import Mathlib.Tactic.Ring
import Mathlib.Data.List.Basic

/-!
# Numbers of variable length

A number below `2 ^ 64` is written in groups of seven bits, the highest first, with the top bit set
in every byte but the last. A ninth byte holds eight bits.
-/

namespace Varint

/-- The low `count` groups of a number, to be followed by another. -/
def groups : Nat → Nat → List UInt8
  | 0, _ => []
  | count + 1, value => groups count (value / 128) ++ [UInt8.ofNat (value % 128 + 128)]

/-- How many groups a number needs, up to a limit. -/
def lengthUpTo : Nat → Nat → Nat
  | 0, _ => 1
  | limit + 1, value => if value / 128 = 0 then 1 else lengthUpTo limit (value / 128) + 1

/-- The number of bytes of a number. -/
def length (value : Nat) : Nat := lengthUpTo 8 value

/-- The bytes of a number. -/
def put (value : Nat) : List UInt8 :=
  if value < 2 ^ 56 then
    groups (length value - 1) (value / 128) ++ [UInt8.ofNat (value % 128)]
  else groups 8 (value / 256) ++ [UInt8.ofNat (value % 256)]

/-- Read a number after the groups read so far. -/
def getLoop : Nat → Nat → List UInt8 → Nat × Nat
  | _, read, [] => (read, 0)
  | 0, read, byte :: _ => (read * 256 + byte.toNat, 1)
  | left + 1, read, byte :: rest =>
    if byte.toNat < 128 then (read * 128 + byte.toNat, 1)
    else
      let (value, count) := getLoop left (read * 128 + (byte.toNat - 128)) rest
      (value, count + 1)

/-- The number at the front of some bytes, and its length. -/
def get (bytes : List UInt8) : Nat × Nat := getLoop 8 0 bytes

/-- A byte keeps the number it is made from. -/
theorem toNat_byte {value : Nat} (small : value < 256) : (UInt8.ofNat value).toNat = value :=
  UInt8.toNat_ofNat_of_lt (by simpa [UInt8.size] using small)

/-- Every group is a byte. -/
@[simp] theorem length_groups (count value : Nat) : (groups count value).length = count := by
  induction count generalizing value with
  | zero => rfl
  | succ count ih => simp [groups, ih]

/-- Reading goes on behind the groups of a number. -/
theorem getLoop_groups (count left read value : Nat) (rest : List UInt8)
    (small : value < 128 ^ count) :
    getLoop (left + count) read (groups count value ++ rest) =
      ((getLoop left (read * 128 ^ count + value) rest).1,
        (getLoop left (read * 128 ^ count + value) rest).2 + count) := by
  induction count generalizing left value rest with
  | zero =>
    have zero : value = 0 := by simpa using small
    simp [groups, zero]
  | succ count ih =>
    -- The last group is read after the ones before it.
    have high : value / 128 < 128 ^ count := by
      rw [Nat.div_lt_iff_lt_mul (by omega)]
      simpa [pow_succ] using small
    have byte : (UInt8.ofNat (value % 128 + 128)).toNat = value % 128 + 128 :=
      toNat_byte (by omega)
    have joined : (read * 128 ^ count + value / 128) * 128 + value % 128 =
        read * 128 ^ (count + 1) + value := by
      have := Nat.div_add_mod value 128
      rw [pow_succ, add_mul, mul_assoc]
      omega
    have step := ih (left + 1) (value / 128) (UInt8.ofNat (value % 128 + 128) :: rest) high
    rw [show left + (count + 1) = left + 1 + count by omega]
    simp only [groups, List.append_assoc, List.singleton_append]
    rw [step]
    simp only [getLoop, byte, show ¬ value % 128 + 128 < 128 by omega, if_false,
      Nat.add_sub_cancel, joined]
    rw [add_assoc, add_comm 1 count]

/-- Every number has a group. -/
theorem lengthUpTo_pos (limit value : Nat) : 0 < lengthUpTo limit value := by
  cases limit <;> simp only [lengthUpTo] <;> [omega; (split <;> omega)]

/-- The limit bounds the groups. -/
theorem lengthUpTo_le (limit value : Nat) : lengthUpTo limit value ≤ limit + 1 := by
  induction limit generalizing value with
  | zero => simp [lengthUpTo]
  | succ limit ih =>
    simp only [lengthUpTo]
    split
    · omega
    · exact Nat.succ_le_succ (ih _)

/-- `count` groups suffice below the power. -/
theorem lengthUpTo_le_iff (limit value count : Nat) (below : count < limit) :
    lengthUpTo limit value ≤ count + 1 ↔ value < 128 ^ (count + 1) := by
  induction limit generalizing value count with
  | zero => omega
  | succ limit ih =>
    have shift : value / 128 < 128 ^ count ↔ value < 128 ^ (count + 1) := by
      rw [Nat.div_lt_iff_lt_mul (by omega), pow_succ]
    simp only [lengthUpTo]
    rw [← shift]
    cases count with
    | zero =>
      have positive := lengthUpTo_pos limit (value / 128)
      split <;> simp <;> omega
    | succ count =>
      rw [← ih (value / 128) count (by omega)]
      have positive := lengthUpTo_pos limit (value / 128)
      split
      case isTrue zero =>
        have small := (ih (value / 128) count (by omega)).mpr (by
          rw [zero]
          exact Nat.pow_pos (by omega))
        exact ⟨fun _ => small, fun _ => by omega⟩
      case isFalse => exact ⟨fun le => by omega, fun le => by omega⟩

/-- `count` groups suffice below the power. -/
theorem length_le_iff (value count : Nat) (below : count < 8) :
    length value ≤ count + 1 ↔ value < 128 ^ (count + 1) :=
  lengthUpTo_le_iff 8 value count below

/-- Every number has a byte. -/
theorem length_pos (value : Nat) : 0 < length value := lengthUpTo_pos 8 value

/-- No number has more than nine. -/
theorem length_le (value : Nat) : length value ≤ 9 := lengthUpTo_le 8 value

/-- A larger number has no fewer bytes. -/
theorem length_mono {low high : Nat} (le : low ≤ high) : length low ≤ length high := by
  by_cases small : length high ≤ 8
  · have positive := length_pos high
    obtain ⟨count, exact⟩ : ∃ count, length high = count + 1 := ⟨length high - 1, by omega⟩
    have bound := (length_le_iff high count (by omega)).mp (by omega)
    rw [exact]
    exact (length_le_iff low count (by omega)).mpr (by omega)
  · have := length_le low
    omega

/-- The bytes of a number are as many as its length says. -/
theorem length_put (value : Nat) : (put value).length = length value := by
  have positive := length_pos value
  have small := length_le_iff value 7 (by omega)
  have limit := length_le value
  rw [put]
  split <;> simp <;> omega

/-- Reading what was written gives the number back. -/
theorem get_put (value : Nat) (rest : List UInt8) (fits : value < 2 ^ 64) :
    get (put value ++ rest) = (value, (put value).length) := by
  have positive := length_pos value
  have small := length_le_iff value 7 (by omega)
  rw [length_put, get, put]
  split
  case isTrue lower =>
    have limit : length value ≤ 8 := small.mpr (by omega)
    have high : value / 128 < 128 ^ (length value - 1) := by
      have := (length_le_iff value (length value - 1) (by omega)).mp (by omega)
      rw [Nat.div_lt_iff_lt_mul (by omega), ← pow_succ]
      exact this
    have byte : (UInt8.ofNat (value % 128)).toNat = value % 128 :=
      toNat_byte (by omega)
    have read := getLoop_groups (length value - 1) (9 - length value) 0 (value / 128)
      (UInt8.ofNat (value % 128) :: rest) high
    rw [show 9 - length value + (length value - 1) = 8 by omega] at read
    rw [List.append_assoc, List.singleton_append, read]
    obtain ⟨left, exact⟩ : ∃ left, 9 - length value = left + 1 := ⟨8 - length value, by omega⟩
    simp only [exact, getLoop, byte, show value % 128 < 128 by omega, if_true, zero_mul, zero_add]
    ext <;> simp <;> omega
  case isFalse upper =>
    have nine : length value = 9 := by
      have := length_le value
      omega
    have high : value / 256 < 128 ^ 8 := by
      rw [Nat.div_lt_iff_lt_mul (by omega)]
      omega
    have byte : (UInt8.ofNat (value % 256)).toNat = value % 256 :=
      toNat_byte (by omega)
    have read := getLoop_groups 8 0 0 (value / 256) (UInt8.ofNat (value % 256) :: rest) high
    rw [zero_add] at read
    rw [List.append_assoc, List.singleton_append, read, nine]
    simp only [getLoop, byte, zero_mul, zero_add]
    ext <;> simp
    omega

end Varint
