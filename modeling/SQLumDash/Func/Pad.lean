import SQLumDash.Basic
import SQLumDash.Lib.Memory
import Mathlib.Data.List.TakeWhile

/-!
# lpad and rpad

Both functions request `lenTotal + 1` bytes, a 32 bit sum, and write padding and text into them.
With a negative length the text is copied all the same, over the end of the memory or up to its last
byte, so that no zero byte ends the result.
-/

namespace SQLumDash.Func

open Memory
open List (replicate append_assoc mem_singleton mem_cons nil_append)

/-- Bytes of a text. -/
abbrev Bytes := List UInt8

/-- The value of an `int`. -/
def toInt (value : Int) : Int := value.bmod (2 ^ 32)

/-- The bytes requested, after the conversion to a `u64`. -/
def requested (lenPad : Int) (len : Nat) : Nat :=
  let lenTotal := toInt (lenPad + len)
  (toInt (lenTotal + 1) % 2 ^ 64).toNat

/-- What a function gives back. -/
inductive ResultText where
  | text (z : Bytes)
  /-- `SQLITE_TOOBIG` -/
  | toobig
  deriving DecidableEq, Repr

/-- `sqlite3_result_text` without a length: up to the first zero byte, if there is one. -/
def sqlite3ResultText (iLimit : Nat) (memory : Bytes) : Option ResultText :=
  if 0 ∈ memory then
    let z := memory.takeWhile (· ≠ 0)
    let nByte := z.length % 2 ^ 31
    some (if iLimit < nByte then .toobig else .text (z.take nByte))
  else none

/-- A call for which memory was found. -/
structure PadCall where
  nByte : Nat
  stores : List (Store UInt8)
  result : Option ResultText
  deriving DecidableEq, Repr

/-- What both functions share. -/
def padText (alloc : Nat → Bool) (behind : Bytes) (iLimit : Nat) (lenPad : Int) (len : Nat)
    (stores : List (Store UInt8)) : Option PadCall :=
  let nByte := requested lenPad len
  if sqlite3Malloc alloc nByte then
    some ⟨nByte, stores,
      (storeAll (replicate nByte 0 ++ behind) stores).bind (sqlite3ResultText iLimit)⟩
  else none

/-- A blank, or the first byte of the third argument, zero for an empty text. -/
def padChar : Option (Option Bytes) → Option UInt8
  | none => some 32
  | some none => none
  | some (some zTmp) => some (zTmp.headD 0)

/-- The stores of `lpadFunc`. -/
def lpadStores (c : UInt8) (lenPad : Int) (z : Bytes) : List (Store UInt8) :=
  (if lenPad > 0 then [⟨0, replicate lenPad.toNat c⟩] else []) ++ [⟨lenPad.toNat, z⟩]

/-- The stores of `rpadFunc`. -/
def rpadStores (c : UInt8) (lenPad : Int) (z : Bytes) : List (Store UInt8) :=
  ⟨0, z⟩ :: if lenPad > 0 then [⟨z.length, replicate lenPad.toNat c⟩] else []

section

variable (alloc : Nat → Bool) (behind : Bytes) (iLimit : Nat)

/-- The arguments, and the stores that each function makes. -/
def padFunc (stores : UInt8 → Int → Bytes → List (Store UInt8)) (argv0 : Option Bytes)
    (argv1 : Option Int) (argv2 : Option (Option Bytes)) : Option PadCall :=
  match argv1, padChar argv2, argv0 with
  | some lenPad, some c, some z =>
    padText alloc behind iLimit lenPad z.length (stores c lenPad z)
  | _, _, _ => none

/-- `lpadFunc` -/
def lpadFunc := padFunc alloc behind iLimit lpadStores

/-- `rpadFunc` -/
def rpadFunc := padFunc alloc behind iLimit rpadStores

end

/-- A text. -/
abbrev PadText := {z : Bytes // 0 ∉ z ∧ z.length < 2 ^ 31}

/-- A length, which may be negative. -/
abbrev PadLength := {n : Int // -2 ^ 31 ≤ n ∧ n < 2 ^ 31}

/-- The arguments that give a character to insert. -/
inductive PadArg where
  | blank
  | char (c : {c : UInt8 // c ≠ 0}) (rest : Bytes)

/-- The third argument. -/
def PadArg.argv2 : PadArg → Option (Option Bytes)
  | .blank => none
  | .char c rest => some (some (c.1 :: rest))

/-- The character. -/
def PadArg.byte : PadArg → UInt8
  | .blank => 32
  | .char c _ => c.1

/-- The call stays in its memory and gives the padded text. -/
def PadCall.Right (call : PadCall) (padded : Bytes) : Prop :=
  (∀ s ∈ call.stores, s.start + s.bytes.length ≤ call.nByte) ∧
    call.result = some (.text padded)

/-- The length is not negative and the result not too long, or the request is refused. -/
def PadFits (iLimit len : Nat) (n : Int) : Prop :=
  (0 ≤ n ∧ n + len ≤ iLimit) ∨ n + len < 0 ∨ 0x7fffff00 ≤ n + len + 1

/-- What is requested if it can be given out. -/
theorem requested_spec (n : PadLength) {len : Nat} (short : len < 2 ^ 31) :
    (0 < requested n.1 len ∧ requested n.1 len < 0x7fffff00) ↔
      0 ≤ n.1 + len ∧ n.1 + len + 1 < 0x7fffff00 := by
  have low := n.2.1
  have high := n.2.2
  unfold requested toInt
  simp only [Int.bmod_def]
  omega

/-- The request without a wrap. -/
theorem requested_eq (n : PadLength) {len : Nat} (nonneg : 0 ≤ n.1 + len)
    (small : n.1 + len + 1 < 0x7fffff00) : (requested n.1 len : Int) = n.1 + len + 1 := by
  unfold requested toInt
  simp only [Int.bmod_def]
  omega

section Memory

variable {behind padded : Bytes} {iLimit : Nat}

/-- The memory in three parts. -/
theorem replicate_split (first second : Nat) :
    replicate (first + second + 1) (0 : UInt8) ++ behind =
      replicate first 0 ++ replicate second 0 ++ 0 :: behind := by
  rw [List.replicate_succ', ← List.replicate_append_replicate, append_assoc,
    List.singleton_append]

/-- A text is read up to the zero byte behind it. -/
theorem sqlite3ResultText_append (noZero : 0 ∉ padded) (short : padded.length < 2 ^ 31) :
    sqlite3ResultText iLimit (padded ++ 0 :: behind) =
      some (if iLimit < padded.length then .toobig else .text padded) := by
  have passes : ∀ byte ∈ padded, decide (byte ≠ 0) = true := by
    intro byte member
    refine decide_eq_true ?_
    rintro rfl
    exact noZero member
  have read : (padded ++ 0 :: behind).takeWhile (fun byte => decide (byte ≠ 0)) = padded := by
    rw [List.takeWhile_append_of_pos passes]
    simp
  have zero : (0 : UInt8) ∈ padded ++ 0 :: behind := by simp
  simp only [sqlite3ResultText, if_pos zero, read, Nat.mod_eq_of_lt short, List.take_length]

end Memory

/-- The stores leave the padded text before a zero byte; with a negative length, they store the
text. -/
structure Lays (stores : List (Store UInt8)) (z padded : Bytes) (n : Int) : Prop where
  length : padded.length = n.toNat + z.length
  noZero : 0 ∉ padded
  inside : 0 ≤ n → ∀ s ∈ stores, s.start + s.bytes.length ≤ n.toNat + z.length
  written : 0 ≤ n → ∀ behind, storeAll (replicate (n.toNat + z.length + 1) 0 ++ behind) stores =
    some (padded ++ 0 :: behind)
  alone : n < 0 → padded = z ∧ stores = [⟨0, z⟩]

variable {z : PadText} {n : PadLength} {c : UInt8} {stores : List (Store UInt8)} {padded : Bytes}
  {iLimit : Nat}

/-- Calls that give the padded text, whatever memory they get. -/
def PadsRight (iLimit : Nat) (z : PadText) (n : PadLength) (stores : List (Store UInt8))
    (padded : Bytes) : Prop :=
  ∀ alloc behind call, padText alloc behind iLimit n.1 z.1.length stores = some call →
    call.Right padded

/-- A request that is given out. -/
theorem padText_some {alloc : Nat → Bool} {behind : Bytes} {call : PadCall}
    (called : padText alloc behind iLimit n.1 z.1.length stores = some call) :
    0 ≤ n.1 + z.1.length ∧ n.1 + z.1.length + 1 < 0x7fffff00 ∧
      call = ⟨requested n.1 z.1.length, stores,
        (storeAll (replicate (requested n.1 z.1.length) 0 ++ behind) stores).bind
          (sqlite3ResultText iLimit)⟩ := by
  unfold padText at called
  simp only at called
  split at called
  · next given =>
    have range := (requested_spec n z.2.2).1 (sqlite3Malloc_iff.1 given).1
    exact ⟨range.1, range.2, (Option.some.inj called).symm⟩
  · cases called

/-- An allocator that gives out what it may. -/
theorem padText_given (iLimit : Nat) (stores : List (Store UInt8)) (nonneg : 0 ≤ n.1 + z.1.length)
    (small : n.1 + z.1.length + 1 < 0x7fffff00) (behind : Bytes) :
    padText (fun _ => true) behind iLimit n.1 z.1.length stores =
      some ⟨requested n.1 z.1.length, stores,
        (storeAll (replicate (requested n.1 z.1.length) 0 ++ behind) stores).bind
          (sqlite3ResultText iLimit)⟩ := by
  have given : sqlite3Malloc (fun _ => true) (requested n.1 z.1.length) = true :=
    sqlite3Malloc_iff.2 ⟨(requested_spec n z.2.2).2 ⟨nonneg, small⟩, rfl⟩
  simp only [padText, given, if_true]

/-- What a call gives with a length that is not negative. -/
theorem Lays.result (lays : Lays stores z.1 padded n.1) (nonneg : 0 ≤ n.1)
    (small : n.1 + z.1.length + 1 < 0x7fffff00) (iLimit : Nat) (behind : Bytes) :
    requested n.1 z.1.length = n.1.toNat + z.1.length + 1 ∧
      (storeAll (replicate (requested n.1 z.1.length) 0 ++ behind) stores).bind
        (sqlite3ResultText iLimit) =
      some (if iLimit < padded.length then .toobig else .text padded) := by
  have exact' := requested_eq n (by omega) small
  have size : requested n.1 z.1.length = n.1.toNat + z.1.length + 1 := by omega
  have length := lays.length
  refine ⟨size, ?_⟩
  rw [size, lays.written nonneg behind]
  exact sqlite3ResultText_append lays.noZero (by omega)

/-- Such stores pad right where it fits. -/
theorem Lays.pads_iff (lays : Lays stores z.1 padded n.1) :
    PadsRight iLimit z n stores padded ↔ PadFits iLimit z.1.length n.1 := by
  have length := lays.length
  constructor
  · intro right
    by_contra unfit
    have inRange : 0 ≤ n.1 + z.1.length ∧ n.1 + z.1.length + 1 < 0x7fffff00 := by
      unfold PadFits at unfit
      omega
    have call (behind : Bytes) :=
      right (fun _ => true) behind _ (padText_given iLimit stores inRange.1 inRange.2 behind)
    by_cases nonneg : 0 ≤ n.1
    · -- The text is too long for the connection.
      have tooLong : iLimit < padded.length := by
        unfold PadFits at unfit
        omega
      have result := (call []).2
      simp only [(lays.result nonneg inRange.2 iLimit []).2, if_pos tooLong] at result
      cases result
    · obtain ⟨same, rfl⟩ := lays.alone (by omega)
      have bound := (call []).1 _ (mem_singleton.2 rfl)
      have size := requested_eq n inRange.1 inRange.2
      simp only at bound
      -- The text fills the memory, and what is behind it decides where the result ends.
      have last : requested n.1 z.1.length = z.1.length := by omega
      have filled : storeAll (replicate z.1.length 0 ++ [1, 0]) [⟨0, z.1⟩] =
          some ((z.1 ++ [1]) ++ 0 :: []) := by
        have stored : store ([] ++ replicate z.1.length 0 ++ [1, 0]) ⟨0, z.1⟩ =
            some ([] ++ z.1 ++ [1, 0]) := store_middle (by simp)
        simpa [storeAll] using stored
      have noZero : 0 ∉ z.1 ++ [1] := by simp [z.2.1]
      have short : (z.1 ++ [1]).length < 2 ^ 31 := by
        simp only [List.length_append, List.length_singleton]
        omega
      have result := (call [1, 0]).2
      simp only [last, filled, Option.bind_some, sqlite3ResultText_append noZero short] at result
      split at result
      · cases result
      · have texts : z.1 ++ [1] = padded := by simpa using result
        have lengths := congrArg List.length texts
        rw [same] at lengths
        simp at lengths
  · intro fits alloc behind call called
    obtain ⟨nonneg, small, rfl⟩ := padText_some called
    have positive : 0 ≤ n.1 ∧ n.1 + z.1.length ≤ iLimit := by
      unfold PadFits at fits
      omega
    obtain ⟨size, result⟩ := lays.result positive.1 small iLimit behind
    refine ⟨fun s member => ?_, ?_⟩
    · have bound := lays.inside positive.1 s member
      simp only [size]
      omega
    · have short : ¬iLimit < padded.length := by omega
      simp only [result, if_neg short]

/-- The stores of `lpad`. -/
theorem lpad_lays (z : PadText) (n : Int) (nonzero : c ≠ 0) :
    Lays (lpadStores c n z.1) z.1 (replicate n.toNat c ++ z.1) n where
  length := by simp
  noZero := by simp [z.2.1, Ne.symm nonzero]
  inside nonneg s member := by
    unfold lpadStores at member
    split at member
    · rcases mem_cons.1 member with rfl | last
      · simp
      · obtain rfl := mem_singleton.1 last
        exact Nat.le_refl _
    · obtain rfl := mem_singleton.1 member
      exact Nat.le_refl _
  written nonneg behind := by
    have text (front : Bytes) (length : front.length = n.toNat) :
        store (front ++ replicate z.1.length 0 ++ 0 :: behind) ⟨n.toNat, z.1⟩ =
          some (front ++ z.1 ++ 0 :: behind) := by
      rw [← length]
      exact store_middle (by simp)
    rw [replicate_split, lpadStores]
    split
    · have padding : store ([] ++ replicate n.toNat 0 ++
          (replicate z.1.length 0 ++ 0 :: behind)) ⟨0, replicate n.toNat c⟩ =
          some ([] ++ replicate n.toNat c ++ (replicate z.1.length 0 ++ 0 :: behind)) :=
        store_middle (by simp)
      have second := text (replicate n.toNat c) (by simp)
      simp only [nil_append, append_assoc] at padding second ⊢
      simp [storeAll, padding, second]
    · have zero : n.toNat = 0 := by omega
      have only := text [] (by simp [zero])
      simp only [zero, List.replicate_zero, nil_append] at only ⊢
      simp [storeAll, only]
  alone negative := by
    have zero : n.toNat = 0 := by omega
    have notPositive : ¬n > 0 := by omega
    simp [lpadStores, zero, notPositive]

/-- The stores of `rpad`. -/
theorem rpad_lays (z : PadText) (n : Int) (nonzero : c ≠ 0) :
    Lays (rpadStores c n z.1) z.1 (z.1 ++ replicate n.toNat c) n where
  length := by simp [Nat.add_comm]
  noZero := by simp [z.2.1, Ne.symm nonzero]
  inside nonneg s member := by
    rcases mem_cons.1 member with rfl | last
    · simp
    · split at last
      · obtain rfl := mem_singleton.1 last
        simp [Nat.add_comm]
      · cases last
  written nonneg behind := by
    have memory : replicate (n.toNat + z.1.length + 1) 0 ++ behind =
        [] ++ replicate z.1.length 0 ++ (replicate n.toNat 0 ++ 0 :: behind) := by
      rw [Nat.add_comm n.toNat, replicate_split, nil_append, append_assoc]
    have text : store ([] ++ replicate z.1.length 0 ++
        (replicate n.toNat 0 ++ 0 :: behind)) ⟨0, z.1⟩ =
        some ([] ++ z.1 ++ (replicate n.toNat 0 ++ 0 :: behind)) := store_middle (by simp)
    rw [memory, rpadStores, storeAll, text]
    split
    · have padding : store (z.1 ++ replicate n.toNat 0 ++ 0 :: behind)
          ⟨z.1.length, replicate n.toNat c⟩ =
          some (z.1 ++ replicate n.toNat c ++ 0 :: behind) := store_middle (by simp)
      simp only [append_assoc] at padding
      simp [storeAll, padding]
    · have zero : n.toNat = 0 := by omega
      simp [storeAll, zero]
  alone negative := by
    have zero : n.toNat = 0 := by omega
    have notPositive : ¬n > 0 := by omega
    simp [rpadStores, zero, notPositive]

/-- The character of an argument. -/
theorem PadArg.padChar_eq (c : PadArg) : padChar c.argv2 = some c.byte := by
  cases c with
  | blank | char c rest => rfl

/-- It is not zero. -/
theorem PadArg.byte_ne_zero (c : PadArg) : c.byte ≠ 0 := by
  cases c with
  | blank => decide
  | char c rest => exact c.2

/-- A call with a text and a length. -/
theorem padFunc_eq (alloc : Nat → Bool) (behind : Bytes) (iLimit : Nat)
    (stores : UInt8 → Int → Bytes → List (Store UInt8)) (z : Bytes) (lenPad : Int) (c : PadArg) :
    padFunc alloc behind iLimit stores (some z) (some lenPad) c.argv2 =
      padText alloc behind iLimit lenPad z.length (stores c.byte lenPad z) := by
  unfold padFunc
  rw [c.padChar_eq]

/-- The functions stay in their memory and give the padded text, whatever memory they get, exactly
where the length is not negative and the result not too long, or the request is refused. -/
theorem pad_right_iff (iLimit : Nat) (z : PadText) (n : PadLength) (c : PadArg) :
    ((∀ alloc behind call, lpadFunc alloc behind iLimit (some z.1) (some n.1) c.argv2 = some call →
        call.Right (replicate n.1.toNat c.byte ++ z.1)) ↔ PadFits iLimit z.1.length n.1) ∧
      ((∀ alloc behind call, rpadFunc alloc behind iLimit (some z.1) (some n.1) c.argv2 = some call →
        call.Right (z.1 ++ replicate n.1.toNat c.byte)) ↔ PadFits iLimit z.1.length n.1) := by
  have nonzero := c.byte_ne_zero
  have lpad : PadsRight iLimit z n (lpadStores c.byte n.1 z.1) _ ↔ _ :=
    Lays.pads_iff (lpad_lays z n.1 nonzero)
  have rpad : PadsRight iLimit z n (rpadStores c.byte n.1 z.1) _ ↔ _ :=
    Lays.pads_iff (rpad_lays z n.1 nonzero)
  simp only [lpadFunc, rpadFunc, padFunc_eq]
  exact ⟨lpad, rpad⟩

/-- With length -2, two bytes are copied into a memory of one. With length -1, two bytes fill a
memory of two, and the result goes on behind it. -/
theorem pad_leaves_memory :
    let z : Bytes := [97, 98]
    let outside : PadCall := ⟨1, [⟨0, z⟩], some (.text z)⟩
    let unended : PadCall := ⟨2, [⟨0, z⟩], some (.text [97, 98, 99])⟩
    lpadFunc (fun _ => true) [0, 0, 0] 1000000000 (some z) (some (-2)) none = some outside ∧
      rpadFunc (fun _ => true) [0, 0, 0] 1000000000 (some z) (some (-2)) none = some outside ∧
      ¬outside.Right z ∧
      lpadFunc (fun _ => true) [99, 0] 1000000000 (some z) (some (-1)) none = some unended ∧
      rpadFunc (fun _ => true) [99, 0] 1000000000 (some z) (some (-1)) none = some unended ∧
      ¬unended.Right z := by
  refine ⟨by decide +kernel, by decide +kernel, ?_, by decide +kernel, by decide +kernel, ?_⟩
  · intro right
    exact absurd (right.1 ⟨0, [97, 98]⟩ List.mem_cons_self) (by decide)
  · intro right
    exact absurd right.2 (by decide)

end SQLumDash.Func
