import SQLumDash.Basic
import SQLumDash.Lib.Memory
import SQLumDash.Psm.RecordEquality
import Mathlib.Algebra.Order.BigOperators.Group.List

/-!
# Serializing an unpacked key

`vdbeMakeRecord` adds up the size of the record from the last field to the first, and writes it from
the first to the last. Positions and sizes are 32 bit numbers. A blob may end in zeros that are only
counted: the size includes them as soon as some content follows, but they are never written. A
record that the allocator has room for is right exactly when no field ends in counted zeros.
-/

namespace SQLumDash.Psm.MakeRecord

open Memory
open List (replicate length_append append_assoc length_replicate replicate_zero append_nil
  forall_mem_cons nil_append map_cons)

/-! ## The fields and the record -/

/-- The bytes of a text or a blob. -/
abbrev Content := {z : Bytes // z.length < 2 ^ 31}

/-- An `i64`. -/
abbrev I64 := {i : Int // -2 ^ 63 ≤ i ∧ i < 2 ^ 63}

/-- The bits of a `double` that is a number. -/
abbrev RealBits := {bits : Nat // bits < 2 ^ 64 ∧ (Double.ofBits bits).isSome}

/-- What the flags of a `Mem` say that it holds. -/
inductive Field where
  /-- `MEM_Null` -/
  | null (zero : Bool)
  | int (i : I64)
  /-- `MEM_IntReal` -/
  | intReal (i : I64)
  | real (r : RealBits)
  | str (z : Content)
  /-- `MEM_Blob`, with `nZero` for `MEM_Zero`. -/
  | blob (z : Content) (zero : Option {nZero : Nat // nZero < 2 ^ 31})
  deriving DecidableEq, Repr

/-- The zeros that are only counted. -/
def Field.nZero : Field → Nat
  | .blob _ (some nZero) => nZero.1
  | _ => 0

/-- An integer that needs more than six bytes. -/
def isWide (i : Int) : Bool := decide (0x7fffffffffff < (if i < 0 then -i - 1 else i).toNat)

/-- Rounded to the nearest, and to an even one of two. -/
def roundEven (m shift : Nat) : Nat :=
  let rest := m % 2 ^ shift
  if 2 * rest < 2 ^ shift ∨ (2 * rest = 2 ^ shift ∧ m / 2 ^ shift % 2 = 0) then m / 2 ^ shift
  else m / 2 ^ shift + 1

/-- The bits of `(double)i`. -/
def doubleBits (i : Int) : Nat :=
  let m := i.natAbs
  let fraction := if m.log2 ≤ 52 then m * 2 ^ (52 - m.log2) else roundEven m (m.log2 - 52)
  if i = 0 then 0
  -- The leading one of the fraction is not stored. It is the one that the exponent lacks here.
  else (if i < 0 then 2 ^ 63 else 0) + ((m.log2 + 1022) * 2 ^ 52 + fraction)

/-- Rounding adds at most one. -/
theorem roundEven_le (m shift : Nat) : roundEven m shift ≤ m / 2 ^ shift + 1 := by
  unfold roundEven
  dsimp only
  split <;> omega

/-- The double of an integer is a number. -/
theorem doubleBits_number (i : I64) :
    doubleBits i.1 < 2 ^ 64 ∧ (Double.ofBits (doubleBits i.1)).isSome := by
  have low := i.2.1
  have high := i.2.2
  by_cases zero : i.1 = 0
  · rw [zero]
    decide
  have magnitude : i.1.natAbs ≠ 0 := by omega
  have exponent : i.1.natAbs.log2 < 64 := (Nat.log2_lt magnitude).2 (by omega)
  have top : i.1.natAbs < 2 ^ (i.1.natAbs.log2 + 1) := Nat.lt_log2_self
  have fraction : (if i.1.natAbs.log2 ≤ 52 then i.1.natAbs * 2 ^ (52 - i.1.natAbs.log2)
      else roundEven i.1.natAbs (i.1.natAbs.log2 - 52)) ≤ 2 ^ 53 := by
    split
    · next short =>
      have whole : 2 ^ (i.1.natAbs.log2 + 1) * 2 ^ (52 - i.1.natAbs.log2) = 2 ^ 53 := by
        rw [← Nat.pow_add]
        congr 1
        omega
      rw [← whole]
      exact Nat.mul_le_mul_right _ (Nat.le_of_lt top)
    · next long =>
      have whole : 2 ^ (i.1.natAbs.log2 - 52) * 2 ^ 53 = 2 ^ (i.1.natAbs.log2 + 1) := by
        rw [← Nat.pow_add]
        congr 1
        omega
      have cut : i.1.natAbs / 2 ^ (i.1.natAbs.log2 - 52) < 2 ^ 53 :=
        Nat.div_lt_of_lt_mul (whole ▸ top)
      exact Nat.le_trans (roundEven_le _ _) cut
  have bits : doubleBits i.1 < 2 ^ 64 ∧ doubleBits i.1 / 2 ^ 52 % 2 ^ 11 ≠ 2047 := by
    unfold doubleBits
    rw [if_neg zero]
    split <;> omega
  refine ⟨bits.1, ?_⟩
  unfold Double.ofBits
  rw [if_neg bits.2]
  rfl

/-- `(double)i` -/
def realOfInt (i : I64) : RealBits := ⟨doubleBits i.1, doubleBits_number i⟩

-- Halfway between two doubles, the even one is taken.
example : Double.ofBits (doubleBits (-(2 ^ 53 + 1))) = some (.ofInt (-(2 ^ 53))) ∧
    Double.ofBits (doubleBits (2 ^ 53 + 3)) = some (.ofInt (2 ^ 53 + 4)) := by
  decide +kernel

/-- The value of a real. -/
def realValue (r : RealBits) : Mem := (Double.ofBits r.1).elim .null .real

/-- The value of a field. A `MEM_IntReal` is an integer as long as six bytes hold it. -/
def Field.value : Field → Mem
  | .null _ => .null
  | .int i => .int i.1
  | .intReal i => if isWide i.1 then realValue (realOfInt i) else .int i.1
  | .real r => realValue r
  | .str z => .str z.1
  | .blob z zero => .blob (z.1 ++ replicate (Field.nZero (.blob z zero)) 0)

/-- The union `u` of the `Mem`, after `sqlite3VdbeSerialType` has made a double of a wide
`MEM_IntReal`. Zero stands for an unset one. -/
def Field.u : Field → Nat
  | .int i => (i.1 % 2 ^ 64).toNat
  | .intReal i => if isWide i.1 then (realOfInt i).1 else (i.1 % 2 ^ 64).toNat
  | .real r => r.1
  | field => field.nZero

/-- The serial type of an integer and its length. -/
def intType (file_format : Int) (i : Int) : Nat × Nat :=
  let u := (if i < 0 then -i - 1 else i).toNat
  if u ≤ 127 then
    if (i = 0 ∨ i = 1) ∧ 4 ≤ file_format then (8 + u, 0) else (1, 1)
  else if u ≤ 32767 then (2, 2)
  else if u ≤ 8388607 then (3, 3)
  else if u ≤ 2147483647 then (4, 4)
  else if u ≤ 0x7fffffffffff then (5, 6)
  else (6, 8)

/-- `sqlite3VdbeSerialType`: the type and the length of the content. -/
def sqlite3VdbeSerialType (file_format : Int) : Field → Nat × Nat
  | .null _ => (0, 0)
  | .int i => intType file_format i.1
  | .intReal i => if isWide i.1 then (7, 8) else intType file_format i.1
  | .real _ => (7, 8)
  | .str z => ((z.1.length * 2 + 12 + 1) % 2 ^ 32, z.1.length)
  | .blob z zero =>
    let n := (z.1.length + Field.nZero (.blob z zero)) % 2 ^ 32
    ((n * 2 + 12) % 2 ^ 32, n)

/-- The low bytes of a number, highest first. -/
def bigEndianBytes : Nat → Nat → Bytes
  | 0, _ => []
  | len + 1, v => bigEndianBytes len (v / 256) ++ [UInt8.ofNat (v % 256)]

/-- What `sqlite3VdbeSerialPut` writes: not the zeros at the end. -/
def sqlite3VdbeSerialPut (field : Field) (serial_type : Nat) : Bytes :=
  if 0 < serial_type ∧ serial_type ≤ 7 then
    bigEndianBytes (sqlite3VdbeSerialTypeLen serial_type) field.u
  else if 12 ≤ serial_type then
    match field with
    | .str z => z.1
    | .blob z _ => z.1
    | _ => []
  else []

/-- The type that is stored, `uTemp`, and the growth of the size. -/
def storedType (file_format : Int) (nData : Nat) (field : Field) : Nat × Nat :=
  let (serial_type, len) := sqlite3VdbeSerialType file_format field
  match field with
  | .null true | .blob _ (some _) =>
    if serial_type = 0 then (10, len)
    else if nData ≠ 0 then (serial_type, len)
    else (serial_type, (len + 2 ^ 32 - field.nZero) % 2 ^ 32)
  | _ => (serial_type, len)

/-- The size so far. -/
structure Sizes where
  nData : Nat
  nHdr : Nat
  uTemp : List Nat
  deriving DecidableEq, Repr

/-- A pass of the loop that adds up the size. -/
def sizeStep (file_format : Int) (field : Field) (sizes : Sizes) : Sizes :=
  let (serial_type, len) := storedType file_format sizes.nData field
  { nData := (sizes.nData + len) % 2 ^ 32
    nHdr := (sizes.nHdr + if serial_type ≤ 127 then 1 else Varint.length serial_type) % 2 ^ 32
    uTemp := serial_type :: sizes.uTemp }

/-- The header with the bytes of its own size. -/
def wholeHeader (nHdr : Nat) : Nat :=
  if nHdr ≤ 126 then nHdr + 1
  else
    let nVarint := Varint.length nHdr
    let nHdr := (nHdr + nVarint) % 2 ^ 32
    if nVarint < Varint.length nHdr then (nHdr + 1) % 2 ^ 32 else nHdr

/-- The record and the positions behind its parts. -/
structure Written where
  zNewRecord : Bytes
  i : Nat
  j : Nat
  deriving DecidableEq, Repr

/-- The loop that writes types at `i` and contents at `j`. It is undefined where it leaves the
memory. -/
def writeLoop : List (Field × Nat) → Written → Option Written
  | [], w => some w
  | (field, serial_type) :: rest, w => do
    let type := Varint.put serial_type
    let content := sqlite3VdbeSerialPut field serial_type
    let z ← store w.zNewRecord ⟨w.i, type⟩
    let z ← store z ⟨w.j, content⟩
    writeLoop rest ⟨z, (w.i + type.length) % 2 ^ 32, (w.j + content.length) % 2 ^ 32⟩

/-- A record for which memory was found. -/
structure Made where
  nHdr : Nat
  nByte : Nat
  /-- There is none where the memory is left. -/
  written : Option Written
  deriving DecidableEq, Repr

/-- `vdbeMakeRecord`; there is no record where it returns `SQLITE_NOMEM`. -/
def vdbeMakeRecord (alloc : Nat → Bool) (file_format : Int) (fields : List Field) : Option Made :=
  let sizes := fields.foldr (sizeStep file_format) ⟨0, 0, []⟩
  let nHdr := wholeHeader sizes.nHdr
  let nByte := (nHdr + sizes.nData) % 2 ^ 32
  if sqlite3Malloc alloc nByte then
    some ⟨nHdr, nByte, do
      let z ← store (replicate nByte 0) ⟨0, Varint.put nHdr⟩
      writeLoop (fields.zip sizes.uTemp) ⟨z, (Varint.put nHdr).length, nHdr⟩⟩
  else none

/-- Read the fields: types up to the end of the header, contents inside the record, the last one at
its end. -/
def decodeLoop (aKey : Bytes) (szHdr : Nat) : Nat → Nat → Nat → Option (List Mem)
  | 0, _, _ => none
  | fuel + 1, idx, d =>
    if idx < szHdr then
      let (serialType, n) := getVarint32 (aKey.drop idx)
      let (mem, len) := sqlite3VdbeSerialGet (aKey.drop d) serialType
      if d + len ≤ aKey.length then (decodeLoop aKey szHdr fuel (idx + n) (d + len)).map (mem :: ·)
      else none
    else if idx = szHdr ∧ d = aKey.length then some []
    else none

/-- The fields of a record, unless it is corrupt. -/
def decodeRecord (aKey : Bytes) : Option (List Mem) :=
  let (szHdr, idx) := getVarint32 aKey
  decodeLoop aKey szHdr (szHdr + 1) idx szHdr

/-- Both assertions hold, and the record gives the fields back. -/
def Made.RoundTrips (made : Made) (fields : List Field) : Prop :=
  ∃ w, made.written = some w ∧ w.i = made.nHdr ∧ w.j = made.nByte ∧
    decodeRecord w.zNewRecord = some (fields.map Field.value)

section

variable (file_format : Int)

/-- Shortage of memory apart, the record is right. -/
def Encodes (fields : List Field) : Prop :=
  (∃ made, vdbeMakeRecord (fun _ => true) file_format fields = some made) ∧
    ∀ alloc made, vdbeMakeRecord alloc file_format fields = some made → made.RoundTrips fields

/-! ## The two passes -/

/-- The type that is stored, whatever follows. -/
def Field.serialType (field : Field) : Nat := (storedType file_format 0 field).1

/-- The fields with their types. -/
def typed (fields : List Field) : List (Field × Nat) :=
  fields.map fun field => (field, field.serialType file_format)

/-- The types in the header. -/
def typeBytes (pairs : List (Field × Nat)) : Bytes := pairs.flatMap fun pair => Varint.put pair.2

/-- The contents as they are written. -/
def contentBytes (pairs : List (Field × Nat)) : Bytes :=
  pairs.flatMap fun pair => sqlite3VdbeSerialPut pair.1 pair.2

/-- One field more. -/
@[simp] theorem typeBytes_cons (pair : Field × Nat) (pairs : List (Field × Nat)) :
    typeBytes (pair :: pairs) = Varint.put pair.2 ++ typeBytes pairs := rfl

/-- One field more. -/
@[simp] theorem contentBytes_cons (pair : Field × Nat) (pairs : List (Field × Nat)) :
    contentBytes (pair :: pairs) = sqlite3VdbeSerialPut pair.1 pair.2 ++ contentBytes pairs := rfl

/-- One field more. -/
@[simp] theorem typed_cons (field : Field) (fields : List Field) :
    typed file_format (field :: fields) =
      (field, field.serialType file_format) :: typed file_format fields := rfl

/-- The stored type does not depend on what follows. -/
theorem storedType_fst (nData : Nat) (field : Field) :
    (storedType file_format nData field).1 = field.serialType file_format := by
  unfold Field.serialType storedType
  dsimp only
  split
  · split
    · rfl
    · split <;> rfl
  · split
    · rfl
    · split <;> rfl
  · rfl

/-- The size pass stores the types and adds up their bytes. -/
theorem sizes_types (fields : List Field) :
    fields.zip (fields.foldr (sizeStep file_format) ⟨0, 0, []⟩).uTemp = typed file_format fields ∧
      (fields.foldr (sizeStep file_format) ⟨0, 0, []⟩).nHdr =
        (typeBytes (typed file_format fields)).length % 2 ^ 32 := by
  induction fields with
  | nil => exact ⟨rfl, rfl⟩
  | cons field fields ih =>
    have single : (if field.serialType file_format ≤ 127 then 1
        else Varint.length (field.serialType file_format)) =
        Varint.length (field.serialType file_format) := by
      have positive := Varint.length_pos (field.serialType file_format)
      have one := Varint.length_le_iff (field.serialType file_format) 0 (by omega)
      split <;> omega
    simp only [List.foldr_cons, sizeStep, storedType_fst, List.zip_cons_cons, ih.1, ih.2, single,
      typed_cons, typeBytes_cons, length_append, Varint.length_put, true_and]
    omega

/-- Below the limit the size of the header is right. -/
theorem wholeHeader_eq {nTypes : Nat} (small : nTypes + 10 < 2 ^ 32) :
    wholeHeader nTypes = headerSize nTypes := by
  have bytes := Varint.length_le nTypes
  have sum : (nTypes + Varint.length nTypes) % 2 ^ 32 = nTypes + Varint.length nTypes :=
    Nat.mod_eq_of_lt (by omega)
  have next : (nTypes + Varint.length nTypes + 1) % 2 ^ 32 = nTypes + Varint.length nTypes + 1 :=
    Nat.mod_eq_of_lt (by omega)
  simp only [wholeHeader, headerSize, sum, next]

variable {pairs : List (Field × Nat)}

/-- Inside the memory no position wraps. -/
theorem writeLoop_positions {w after : Written} (short : w.zNewRecord.length < 2 ^ 32)
    (atI : w.i ≤ w.zNewRecord.length) (written : writeLoop pairs w = some after) :
    (after.i = w.i + (typeBytes pairs).length ∧ after.i ≤ w.zNewRecord.length) ∧
      (w.j ≤ w.zNewRecord.length → after.j = w.j + (contentBytes pairs).length) := by
  induction pairs generalizing w with
  | nil =>
    cases written
    exact ⟨⟨rfl, atI⟩, fun _ => rfl⟩
  | cons pair pairs ih =>
    simp only [writeLoop, Option.bind_eq_bind, Option.bind_eq_some_iff] at written
    obtain ⟨z1, stored1, z2, stored2, written⟩ := written
    obtain ⟨inside1, size1⟩ := store_some stored1
    obtain ⟨inside2, size2⟩ := store_some stored2
    simp only at inside1 inside2
    have nextI : (w.i + (Varint.put pair.2).length) % 2 ^ 32 =
        w.i + (Varint.put pair.2).length := Nat.mod_eq_of_lt (by omega)
    have nextJ : (w.j + (sqlite3VdbeSerialPut pair.1 pair.2).length) % 2 ^ 32 =
        w.j + (sqlite3VdbeSerialPut pair.1 pair.2).length := Nat.mod_eq_of_lt (by omega)
    rw [nextI, nextJ] at written
    obtain ⟨⟨i, boundI⟩, j⟩ := ih (by simp only; omega) (by simp only; omega) written
    simp only at i boundI j
    simp only [typeBytes_cons, contentBytes_cons, length_append]
    omega

section

variable (pairs : List (Field × Nat))

/-- The second loop fills header and body. -/
theorem writeLoop_eq (front gap body room : Bytes) (header : gap.length = (typeBytes pairs).length)
    (content : room.length = (contentBytes pairs).length)
    (short : (front ++ gap ++ (body ++ room)).length < 2 ^ 32) :
    writeLoop pairs ⟨front ++ gap ++ (body ++ room), front.length, (front ++ gap ++ body).length⟩ =
      some ⟨front ++ typeBytes pairs ++ (body ++ contentBytes pairs),
        (front ++ typeBytes pairs).length,
        (front ++ typeBytes pairs ++ (body ++ contentBytes pairs)).length⟩ := by
  induction pairs generalizing front gap body room with
  | nil =>
    have noGap : gap = [] := List.eq_nil_of_length_eq_zero header
    have noRoom : room = [] := List.eq_nil_of_length_eq_zero content
    subst noGap noRoom
    simp [writeLoop, typeBytes, contentBytes]
  | cons pair pairs ih =>
    rw [typeBytes_cons, length_append] at header
    rw [contentBytes_cons, length_append] at content
    -- The type takes the front of the gap, the content the front of the room.
    obtain ⟨gap1, gap2, rfl, length1⟩ : ∃ gap1 gap2, gap = gap1 ++ gap2 ∧
        gap1.length = (Varint.put pair.2).length :=
      ⟨gap.take _, gap.drop _, (List.take_append_drop (Varint.put pair.2).length gap).symm,
        List.length_take_of_le (by omega)⟩
    obtain ⟨room1, room2, rfl, length2⟩ : ∃ room1 room2, room = room1 ++ room2 ∧
        room1.length = (sqlite3VdbeSerialPut pair.1 pair.2).length :=
      ⟨room.take _, room.drop _,
        (List.take_append_drop (sqlite3VdbeSerialPut pair.1 pair.2).length room).symm,
        List.length_take_of_le (by omega)⟩
    have type : store (front ++ gap1 ++ (gap2 ++ (body ++ (room1 ++ room2))))
        ⟨front.length, Varint.put pair.2⟩ =
        some (front ++ Varint.put pair.2 ++ (gap2 ++ (body ++ (room1 ++ room2)))) :=
      store_middle length1
    have bytes : store ((front ++ Varint.put pair.2 ++ gap2 ++ body) ++ room1 ++ room2)
        ⟨(front ++ Varint.put pair.2 ++ gap2 ++ body).length,
          sqlite3VdbeSerialPut pair.1 pair.2⟩ =
        some ((front ++ Varint.put pair.2 ++ gap2 ++ body) ++
          sqlite3VdbeSerialPut pair.1 pair.2 ++ room2) :=
      store_middle length2
    have rest := ih (front ++ Varint.put pair.2) gap2
      (body ++ sqlite3VdbeSerialPut pair.1 pair.2) room2
      (by simp only [length_append] at header ⊢; omega)
      (by simp only [length_append] at content ⊢; omega)
      (by simp only [length_append] at short ⊢; omega)
    simp only [length_append] at short header content
    have nextI : (front.length + (Varint.put pair.2).length) % 2 ^ 32 =
        (front ++ Varint.put pair.2).length := by
      rw [length_append]
      exact Nat.mod_eq_of_lt (by omega)
    have nextJ : ((front ++ (gap1 ++ gap2) ++ body).length +
        (sqlite3VdbeSerialPut pair.1 pair.2).length) % 2 ^ 32 =
        (front ++ Varint.put pair.2 ++ gap2 ++
          (body ++ sqlite3VdbeSerialPut pair.1 pair.2)).length := by
      simp only [length_append]
      rw [Nat.mod_eq_of_lt (by omega)]
      omega
    have same : (front ++ (gap1 ++ gap2) ++ body).length =
        (front ++ Varint.put pair.2 ++ gap2 ++ body).length := by
      simp only [length_append]
      omega
    simp only [append_assoc] at type bytes rest nextJ same ⊢
    simp only [writeLoop, type, same, bytes, nextI, Option.bind_eq_bind, Option.bind_some,
      typeBytes_cons, contentBytes_cons, append_assoc]
    rw [← same, nextJ]
    exact rest

/-! ## Reading the record back -/

/-- The fields that some types say a body holds. -/
def decodeBody : List Nat → Bytes → Option (List Mem)
  | [], body => if body = [] then some [] else none
  | serialType :: types, body =>
    if sqlite3VdbeSerialTypeLen serialType ≤ body.length then
      (decodeBody types (body.drop (sqlite3VdbeSerialTypeLen serialType))).map
        ((sqlite3VdbeSerialGet body serialType).1 :: ·)
    else none

/-- Types that were written are read back. -/
theorem decodeLoop_eq {aKey : Bytes} {szHdr : Nat} (fuel idx d : Nat) (enough : pairs.length < fuel)
    (types : ∃ rest, aKey.drop idx = typeBytes pairs ++ rest)
    (header : idx + (typeBytes pairs).length = szHdr) (inside : d ≤ aKey.length)
    (small : ∀ pair ∈ pairs, pair.2 ≤ 0xffffffff) :
    decodeLoop aKey szHdr fuel idx d = decodeBody (pairs.map Prod.snd) (aKey.drop d) := by
  induction pairs generalizing fuel idx d with
  | nil =>
    obtain ⟨fuel, rfl⟩ : ∃ less, fuel = less + 1 := ⟨fuel - 1, by omega⟩
    have atEnd : idx = szHdr := header
    have emptied : aKey.drop d = [] ↔ d = aKey.length := by
      rw [List.drop_eq_nil_iff]
      omega
    simp only [decodeLoop, atEnd, Nat.lt_irrefl, if_false, true_and, List.map_nil, decodeBody,
      emptied]
  | cons pair pairs ih =>
    obtain ⟨fuel, rfl⟩ : ∃ less, fuel = less + 1 := ⟨fuel - 1, by omega⟩
    obtain ⟨rest, types⟩ := types
    rw [typeBytes_cons, append_assoc] at types
    rw [typeBytes_cons, length_append] at header
    have positive := Varint.length_pos pair.2
    rw [← Varint.length_put] at positive
    have before : idx < szHdr := by omega
    have type : getVarint32 (aKey.drop idx) = (pair.2, (Varint.put pair.2).length) := by
      rw [types]
      exact getVarint32_put pair.2 _ (small pair List.mem_cons_self)
    have length := sqlite3VdbeSerialGet_length (aKey.drop d) pair.2
    have fits : d + sqlite3VdbeSerialTypeLen pair.2 ≤ aKey.length ↔
        sqlite3VdbeSerialTypeLen pair.2 ≤ (aKey.drop d).length := by
      rw [List.length_drop]
      omega
    rw [decodeLoop, if_pos before, map_cons, decodeBody]
    simp only [type, length, fits, List.drop_drop]
    split
    case isFalse => rfl
    case isTrue room =>
      have next := ih fuel (idx + (Varint.put pair.2).length)
        (d + sqlite3VdbeSerialTypeLen pair.2) (by simpa using enough)
        ⟨rest, by rw [← List.drop_drop, types, List.drop_left]⟩ (by omega) (fits.mpr room)
        (fun other member => small other (List.mem_cons_of_mem _ member))
      rw [next]

/-- Every type has a byte. -/
theorem length_le_typeBytes : pairs.length ≤ (typeBytes pairs).length := by
  induction pairs with
  | nil => exact Nat.zero_le _
  | cons pair pairs ih =>
    have positive := Varint.length_pos pair.2
    rw [typeBytes_cons, length_append, Varint.length_put, List.length_cons]
    omega

/-- A record is read by its types. -/
theorem decodeRecord_eq (body : Bytes) (short : (typeBytes pairs).length + 10 < 2 ^ 32)
    (small : ∀ pair ∈ pairs, pair.2 ≤ 0xffffffff) :
    decodeRecord (Varint.put (headerSize (typeBytes pairs).length) ++ typeBytes pairs ++ body) =
      decodeBody (pairs.map Prod.snd) body := by
  have size := headerSize_eq (typeBytes pairs).length (by omega)
  have count := length_le_typeBytes pairs
  have bytes := Varint.length_le (headerSize (typeBytes pairs).length)
  rw [← Varint.length_put] at bytes
  have split : (Varint.put (headerSize (typeBytes pairs).length) ++ typeBytes pairs).length =
      headerSize (typeBytes pairs).length := by
    rw [length_append]
    exact size
  have read := getVarint32_put (headerSize (typeBytes pairs).length) (typeBytes pairs ++ body)
    (by omega)
  rw [← append_assoc] at read
  simp only [decodeRecord, read]
  rw [decodeLoop_eq pairs _ _ _ (by omega) ⟨body, by rw [append_assoc, List.drop_left]⟩ size
    (by rw [length_append, split]; exact Nat.le_add_right _ _) small, List.drop_left' split]

end

/-! ## The columns of a key -/

/-- The number of bytes. -/
@[simp] theorem length_bigEndianBytes (len v : Nat) : (bigEndianBytes len v).length = len := by
  induction len generalizing v with
  | zero => rfl
  | succ len ih => simp [bigEndianBytes, ih]

/-- Bytes are read back as the number. -/
theorem bigEndian_bytes (len v : Nat) : bigEndian (bigEndianBytes len v) = v % 256 ^ len := by
  induction len generalizing v with
  | zero => simp [bigEndianBytes, bigEndian, Nat.mod_one]
  | succ len ih =>
    have high := ih (v / 256)
    have low : (UInt8.ofNat (v % 256)).toNat = v % 256 := Varint.toNat_byte (by omega)
    unfold bigEndian at high
    simp only [bigEndian, bigEndianBytes, List.foldl_append, List.foldl_cons, List.foldl_nil, high,
      low]
    rw [pow_succ, Nat.mul_comm (256 ^ len), Nat.mod_mul]
    omega

/-- A number is read from the bytes of its two's complement. -/
theorem bigEndianInt_bytes (len : Nat) (i : Int) (word : (256 : Int) ^ len ∣ 2 ^ 64)
    (low : -256 ^ len ≤ 2 * i) (high : 2 * i < 256 ^ len) :
    bigEndianInt (bigEndianBytes len (i % 2 ^ 64).toNat) = i := by
  have unsigned : (bigEndian (bigEndianBytes len (i % 2 ^ 64).toNat) : Int) = i % 256 ^ len := by
    rw [bigEndian_bytes, Int.natCast_mod, Int.toNat_of_nonneg (Int.emod_nonneg i (by decide)),
      Int.natCast_pow]
    exact Int.emod_emod_of_dvd i word
  have limit : ((256 ^ len : Nat) : Int) = 256 ^ len := Int.natCast_pow 256 len
  unfold bigEndianInt
  rw [length_bigEndianBytes]
  by_cases negative : i < 0
  · have shifted : i % 256 ^ len = i + 256 ^ len := by
      rw [← Int.add_emod_right]
      exact Int.emod_eq_of_lt (by omega) (by omega)
    rw [if_neg (by omega)]
    omega
  · have same : i % 256 ^ len = i := Int.emod_eq_of_lt (by omega) (by omega)
    rw [if_pos (by omega)]
    omega

/-- The column of an integer. -/
def intColumn (i : I64) : Column where
  serialType := (intType file_format i.1).1
  content := bigEndianBytes (sqlite3VdbeSerialTypeLen (intType file_format i.1).1)
    (i.1 % 2 ^ 64).toNat
  sized := length_bigEndianBytes _ _

/-- The column of a real. -/
def realColumn (r : RealBits) : Column where
  serialType := 7
  content := bigEndianBytes 8 r.1
  sized := length_bigEndianBytes _ _

/-- The field as a column, with its zeros written out. -/
def Field.column : Field → Column
  | .null zero => ⟨if zero then 10 else 0, [], by cases zero <;> rfl⟩
  | .int i => intColumn file_format i
  | .intReal i => if isWide i.1 then realColumn (realOfInt i) else intColumn file_format i
  | .real r => realColumn r
  | .str z => ⟨z.1.length * 2 + 1 + 12, z.1, by rw [serialTypeLen_large]; omega⟩
  | .blob z zero => ⟨(z.1.length + Field.nZero (.blob z zero)) * 2 + 12,
      z.1 ++ replicate (Field.nZero (.blob z zero)) 0, by
        rw [serialTypeLen_large, length_append, length_replicate]
        omega⟩

/-- The types of written integers, with their lengths. -/
def intTypes : List (Nat × Nat) := [(1, 1), (2, 2), (3, 3), (4, 4), (5, 6), (6, 8)]

/-- An integer is not written, or in bytes that hold it. -/
theorem intType_cases (i : I64) :
    (intType file_format i.1 = (8, 0) ∧ i.1 = 0) ∨ (intType file_format i.1 = (9, 0) ∧ i.1 = 1) ∨
      (intType file_format i.1 ∈ intTypes ∧ -256 ^ (intType file_format i.1).2 ≤ 2 * i.1 ∧
        2 * i.1 < 256 ^ (intType file_format i.1).2) := by
  have low := i.2.1
  have high := i.2.2
  have unsigned (bound : Nat) : (if i.1 < 0 then -i.1 - 1 else i.1).toNat ≤ bound ↔
      -(bound : Int) - 1 ≤ i.1 ∧ i.1 ≤ bound := by
    split <;> omega
  by_cases constant : (i.1 = 0 ∨ i.1 = 1) ∧ 4 ≤ file_format
  · obtain zero | one := constant.1
    · simp [intType, zero, constant.2]
    · simp [intType, one, constant.2]
  · refine Or.inr (Or.inr ?_)
    simp only [intType, unsigned, if_neg constant]
    split_ifs
    all_goals
      refine ⟨by decide, ?_⟩
      dsimp only
      omega

/-- The lengths are those of the types. -/
theorem intTypes_length {type : Nat × Nat} (member : type ∈ intTypes) :
    sqlite3VdbeSerialTypeLen type.1 = type.2 := by
  revert type
  decide

/-- An integer is read from its bytes. -/
theorem sqlite3VdbeSerialGet_int {type : Nat × Nat} (member : type ∈ intTypes) {buf : Bytes}
    (sized : buf.length = type.2) :
    (sqlite3VdbeSerialGet buf type.1).1 = .int (bigEndianInt buf) := by
  have whole : buf.take type.2 = buf := List.take_of_length_le (Nat.le_of_eq sized)
  simp only [intTypes, List.mem_cons, List.not_mem_nil, or_false] at member
  rcases member with rfl | rfl | rfl | rfl | rfl | rfl
  all_goals exact congrArg (fun x => Mem.int (bigEndianInt x)) whole

/-- An integer is written in its bytes. -/
theorem sqlite3VdbeSerialPut_int {type : Nat × Nat} (member : type ∈ intTypes) (field : Field) :
    sqlite3VdbeSerialPut field type.1 = bigEndianBytes type.2 field.u := by
  have written : 0 < type.1 ∧ type.1 ≤ 7 := by
    revert type
    decide
  unfold sqlite3VdbeSerialPut
  rw [if_pos written, intTypes_length member]

/-- The column of an integer. -/
theorem intColumn_value (i : I64) : (intColumn file_format i).value = .int i.1 := by
  simp only [intColumn, Column.value]
  obtain ⟨type, value⟩ | ⟨type, value⟩ | ⟨written, low, high⟩ := intType_cases file_format i
  · rw [type, value]
    rfl
  · rw [type, value]
    rfl
  · have word : (256 : Int) ^ (intType file_format i.1).2 ∣ 2 ^ 64 := by
      revert written
      generalize intType file_format i.1 = type
      revert type
      decide
    rw [sqlite3VdbeSerialGet_int written (by rw [length_bigEndianBytes, intTypes_length written]),
      intTypes_length written, bigEndianInt_bytes _ i.1 word low high]

/-- The column of a double. -/
theorem realColumn_value (r : RealBits) : (realColumn r).value = realValue r := by
  have read : bigEndian ((bigEndianBytes 8 r.1).take 8) = r.1 := by
    rw [List.take_of_length_le (by rw [length_bigEndianBytes]), bigEndian_bytes]
    exact Nat.mod_eq_of_lt r.2.1
  obtain ⟨value, found⟩ := Option.isSome_iff_exists.mp r.2.2
  simp only [realColumn, realValue, Column.value, sqlite3VdbeSerialGet, read, found,
    Option.elim_some]

/-- The column of a field has the value of the field. -/
theorem Field.column_value (field : Field) : (field.column file_format).value = field.value := by
  cases field with
  | null zero => cases zero <;> rfl
  | int i => exact intColumn_value file_format i
  | intReal i =>
    simp only [Field.column, Field.value]
    split
    · exact realColumn_value (realOfInt i)
    · exact intColumn_value file_format i
  | real r => exact realColumn_value r
  | str z =>
    have odd : ¬(z.1.length * 2 + 1) % 2 = 0 := by omega
    have half : (z.1.length * 2 + 1) / 2 = z.1.length := by omega
    simp only [Field.column, Field.value, Column.value, sqlite3VdbeSerialGet, if_neg odd, half,
      List.take_length]
  | blob z zero =>
    have even : (z.1.length + Field.nZero (.blob z zero)) * 2 % 2 = 0 := by omega
    have half : (z.1.length + Field.nZero (.blob z zero)) * 2 / 2 =
        (z.1 ++ replicate (Field.nZero (.blob z zero)) (0 : UInt8)).length := by
      rw [length_append, length_replicate]
      omega
    simp only [Field.column, Field.value, Column.value, sqlite3VdbeSerialGet, if_pos even, half,
      List.take_length]

/-- What is written for an integer. -/
theorem intColumn_content (i : I64) {field : Field} (same : field.u = (i.1 % 2 ^ 64).toNat) :
    (intColumn file_format i).content =
      sqlite3VdbeSerialPut field (intColumn file_format i).serialType := by
  simp only [intColumn]
  obtain ⟨type, _⟩ | ⟨type, _⟩ | ⟨written, _⟩ := intType_cases file_format i
  · rw [type]
    rfl
  · rw [type]
    rfl
  · rw [sqlite3VdbeSerialPut_int written, intTypes_length written, same]

/-- What is written for a double. -/
theorem realColumn_content (r : RealBits) {field : Field} (same : field.u = r.1) :
    (realColumn r).content = sqlite3VdbeSerialPut field (realColumn r).serialType := by
  simp only [realColumn, ← same]
  rfl

/-- What is written, with the zeros, is the column's content. -/
theorem Field.column_content (field : Field) : (field.column file_format).content =
      sqlite3VdbeSerialPut field (field.column file_format).serialType ++
        replicate field.nZero 0 := by
  cases field with
  | null zero => cases zero <;> rfl
  | int i =>
    simp only [Field.nZero, replicate_zero, append_nil]
    exact intColumn_content file_format i rfl
  | intReal i =>
    simp only [Field.nZero, replicate_zero, append_nil, Field.column]
    split
    · next wide => exact realColumn_content (realOfInt i) (if_pos wide)
    · next short => exact intColumn_content file_format i (if_neg short)
  | real r =>
    simp only [Field.nZero, replicate_zero, append_nil]
    exact realColumn_content r rfl
  | str z => simp [Field.column, Field.nZero, sqlite3VdbeSerialPut]
  | blob z zero => simp [Field.column, sqlite3VdbeSerialPut]

/-- The type of a `MEM_IntReal`. -/
theorem intReal_serialType (i : I64) : (Field.intReal i).serialType file_format =
      ((Field.intReal i).column file_format).serialType := by
  simp only [Field.serialType, storedType, sqlite3VdbeSerialType, Field.column]
  split <;> rfl

/-- The type is that of the column, unless it is cut. -/
theorem Field.serialType_eq (field : Field)
    (short : (field.column file_format).content.length < 0x7fffff00) :
    field.serialType file_format = (field.column file_format).serialType := by
  cases field with
  | null zero => cases zero <;> rfl
  | int i => rfl
  | intReal i => exact intReal_serialType file_format i
  | real r => rfl
  | str z =>
    simp only [Field.column] at short
    simp only [Field.serialType, storedType, sqlite3VdbeSerialType, Field.column]
    omega
  | blob z zero =>
    simp only [Field.column, length_append, length_replicate] at short
    have whole : (z.1.length + Field.nZero (.blob z zero)) % 2 ^ 32 =
        z.1.length + Field.nZero (.blob z zero) := Nat.mod_eq_of_lt (by omega)
    have uncut : ((z.1.length + Field.nZero (.blob z zero)) * 2 + 12) % 2 ^ 32 =
        (z.1.length + Field.nZero (.blob z zero)) * 2 + 12 := Nat.mod_eq_of_lt (by omega)
    cases zero with
    | none => simp only [Field.serialType, storedType, sqlite3VdbeSerialType, Field.column, whole,
        uncut]
    | some nZero =>
      simp only [Field.serialType, storedType, sqlite3VdbeSerialType, Field.column, whole, uncut]
      simp

/-- The length of an integer. -/
theorem intType_length (i : I64) :
    (intType file_format i.1).2 = (intColumn file_format i).content.length := by
  rw [(intColumn file_format i).sized]
  dsimp only [intColumn]
  obtain ⟨type, _⟩ | ⟨type, _⟩ | ⟨written, _⟩ := intType_cases file_format i
  · rw [type]
    rfl
  · rw [type]
    rfl
  · exact (intTypes_length written).symm

/-- The size grows by the content. -/
theorem storedType_snd (nData : Nat) (field : Field) (noZeros : field.nZero = 0) :
    (storedType file_format nData field).2 = (field.column file_format).content.length := by
  cases field with
  | null zero => cases zero <;> rfl
  | int i => exact intType_length file_format i
  | intReal i =>
    simp only [storedType, sqlite3VdbeSerialType, Field.column]
    split
    · rfl
    · exact intType_length file_format i
  | real r | str z => rfl
  | blob z zero =>
    have short := z.2
    have whole : z.1.length % 2 ^ 32 = z.1.length := Nat.mod_eq_of_lt (by omega)
    have less : (z.1.length + 2 ^ 32) % 2 ^ 32 = z.1.length := by omega
    cases zero with
    | none =>
      simp only [storedType, sqlite3VdbeSerialType, Field.column, noZeros, Nat.add_zero, whole,
        replicate_zero, append_nil]
    | some nZero =>
      simp only [storedType, sqlite3VdbeSerialType, Field.column, noZeros, Nat.add_zero, whole,
        Nat.sub_zero, less, replicate_zero, append_nil]
      split
      · rfl
      · split <;> rfl

/-- A text or a blob is read by its length only. -/
theorem sqlite3VdbeSerialGet_bytes {buf z : Bytes} {serialType : Nat} (text : Bool)
    (inside : sqlite3VdbeSerialTypeLen serialType ≤ buf.length)
    (value : (sqlite3VdbeSerialGet buf serialType).1 = if text then .str z else .blob z) :
    serialType = z.length * 2 + text.toNat + 12 := by
  unfold sqlite3VdbeSerialGet at value
  split at value
  case h_7 =>
    cases found : Double.ofBits (bigEndian (buf.take 8)) <;> cases text <;> simp [found] at value
  case h_10 code =>
    rw [serialTypeLen_large] at inside
    have parts : code % 2 = text.toNat ∧ buf.take (code / 2) = z := by
      cases text <;> split at value <;> simp_all
    rw [← parts.1, ← parts.2, List.length_take_of_le inside]
    simp only [Nat.succ_eq_add_one]
    omega
  all_goals cases text <;> cases value

/-- A type that reads the value is the column's. -/
theorem Field.serialType_of_read (field : Field) {buf : Bytes}
    (inside : sqlite3VdbeSerialTypeLen (field.serialType file_format) ≤ buf.length)
    (value : (sqlite3VdbeSerialGet buf (field.serialType file_format)).1 = field.value) :
    field.serialType file_format = (field.column file_format).serialType := by
  cases field with
  | null zero => cases zero <;> rfl
  | int i => rfl
  | intReal i => exact intReal_serialType file_format i
  | real r => rfl
  | str z => exact sqlite3VdbeSerialGet_bytes true inside value
  | blob z zero =>
    have type := sqlite3VdbeSerialGet_bytes false inside value
    rw [length_append, length_replicate] at type
    exact type

end

/-! ## The round trip -/

section

variable {file_format : Int} {fields : List Field}

/-- The fields of a key as columns. -/
def columns (file_format : Int) (fields : List Field) : List Column :=
  fields.map (Field.column file_format)

/-- A body that is read back has room for all fields. -/
theorem decodeBody_exact {body : Bytes}
    (decoded : decodeBody ((typed file_format fields).map Prod.snd) body =
      some (fields.map Field.value)) :
    (contentBytes (typed file_format fields)).length + (fields.map Field.nZero).sum = body.length ∧
      ∀ field ∈ fields,
        field.serialType file_format = (field.column file_format).serialType := by
  induction fields generalizing body with
  | nil =>
    simp only [typed, List.map_nil, decodeBody] at decoded
    split at decoded
    · next empty => simp [empty, typed, contentBytes]
    · cases decoded
  | cons field fields ih =>
    simp only [typed_cons, map_cons, decodeBody] at decoded
    split at decoded
    · next inside =>
      obtain ⟨rest, read, values⟩ := Option.map_eq_some_iff.mp decoded
      obtain ⟨value, rfl⟩ := List.cons.inj values
      obtain ⟨total, types⟩ := ih read
      have type := field.serialType_of_read file_format inside value
      have content := congrArg List.length (field.column_content file_format)
      rw [(field.column file_format).sized, ← type, length_append,
        length_replicate] at content
      rw [List.length_drop] at total
      refine ⟨?_, forall_mem_cons.mpr ⟨type, types⟩⟩
      simp only [typed_cons, contentBytes_cons, length_append, map_cons, List.sum_cons]
      omega
    · cases decoded

/-- The types are those of the columns. -/
theorem typeBytes_eq (types : ∀ field ∈ fields,
      field.serialType file_format = (field.column file_format).serialType) :
    typeBytes (typed file_format fields) = headerTypes (columns file_format fields) := by
  induction fields with
  | nil => rfl
  | cons field fields ih =>
    obtain ⟨type, types⟩ := forall_mem_cons.mp types
    rw [typed_cons, typeBytes_cons, ih types, type]
    rfl

/-- The contents are those of the columns. -/
theorem contentBytes_eq (noZeros : ∀ field ∈ fields, field.nZero = 0)
    (types : ∀ field ∈ fields,
      field.serialType file_format = (field.column file_format).serialType) :
    contentBytes (typed file_format fields) = contents (columns file_format fields) := by
  induction fields with
  | nil => rfl
  | cons field fields ih =>
    obtain ⟨none, noZeros⟩ := forall_mem_cons.mp noZeros
    obtain ⟨type, types⟩ := forall_mem_cons.mp types
    have content := field.column_content file_format
    rw [none, replicate_zero, append_nil, ← type] at content
    rw [typed_cons, contentBytes_cons, ih noZeros types, ← content]
    rfl

/-- The size of the body, in 32 bits. -/
theorem sizes_nData (noZeros : ∀ field ∈ fields, field.nZero = 0) :
    (fields.foldr (sizeStep file_format) ⟨0, 0, []⟩).nData =
      (contents (columns file_format fields)).length % 2 ^ 32 := by
  induction fields with
  | nil => rfl
  | cons field fields ih =>
    obtain ⟨none, noZeros⟩ := forall_mem_cons.mp noZeros
    simp only [List.foldr_cons, sizeStep, storedType_snd _ _ _ none, ih noZeros, columns,
      map_cons, contents_cons, length_append]
    omega

/-- Columns are read from their own contents. -/
theorem decodeBody_columns (columns : List Column) :
    decodeBody (columns.map Column.serialType) (contents columns) =
      some (columns.map Column.value) := by
  induction columns with
  | nil => rfl
  | cons column columns ih =>
    have inside : sqlite3VdbeSerialTypeLen column.serialType ≤
        (column.content ++ contents columns).length := by
      rw [← column.sized, length_append]
      exact Nat.le_add_right _ _
    rw [map_cons, contents_cons, decodeBody, if_pos inside, List.drop_left' column.sized, ih,
      column.read]
    rfl

/-- The second pass, if the sizes are right. -/
theorem written_eq {nHdr nByte : Nat}
    (header : (Varint.put nHdr).length + (typeBytes pairs).length = nHdr)
    (total : nByte = nHdr + (contentBytes pairs).length) (short : nByte < 2 ^ 32) :
    ((store (replicate nByte 0) ⟨0, Varint.put nHdr⟩).bind fun z =>
        writeLoop pairs ⟨z, (Varint.put nHdr).length, nHdr⟩) =
      some ⟨Varint.put nHdr ++ typeBytes pairs ++ contentBytes pairs, nHdr, nByte⟩ := by
  have parts : replicate nByte (0 : UInt8) =
      [] ++ replicate (Varint.put nHdr).length 0 ++
        (replicate (typeBytes pairs).length 0 ++ replicate (contentBytes pairs).length 0) := by
    rw [nil_append, List.replicate_append_replicate, List.replicate_append_replicate, total]
    congr 1
    omega
  have first : store (replicate nByte 0) ⟨0, Varint.put nHdr⟩ =
      some ([] ++ Varint.put nHdr ++ (replicate (typeBytes pairs).length 0 ++
        replicate (contentBytes pairs).length 0)) := by
    rw [parts]
    exact store_middle (by rw [length_replicate])
  have loop := writeLoop_eq pairs (Varint.put nHdr) (replicate (typeBytes pairs).length 0) []
    (replicate (contentBytes pairs).length 0) (by rw [length_replicate])
    (by rw [length_replicate])
    (by simp only [length_append, length_replicate, List.length_nil]; omega)
  simp only [append_assoc, nil_append, append_nil, length_append,
    length_replicate, header] at loop
  simp only [first, Option.bind_some, nil_append, append_assoc]
  rw [loop, ← Nat.add_assoc, header, total]

/-- The length of a record. -/
theorem length_record (columns : List Column) (short : (headerTypes columns).length < 2 ^ 32) :
    (Psm.vdbeMakeRecord columns).length =
      headerSize (headerTypes columns).length + (contents columns).length := by
  rw [Psm.vdbeMakeRecord, length_append, length_append, headerSize_eq _ short]

/-- The stored type is `sqlite3VdbeSerialType`'s, or 10. -/
theorem serialType_or (file_format : Int) (field : Field) :
    field.serialType file_format = 10 ∨
      field.serialType file_format = (sqlite3VdbeSerialType file_format field).1 := by
  unfold Field.serialType storedType
  dsimp only
  split
  · split
    · exact Or.inl rfl
    · exact Or.inr rfl
  · split
    · exact Or.inl rfl
    · exact Or.inr rfl
  · exact Or.inr rfl

/-- Types of integers have 32 bits. -/
theorem intType_le (file_format : Int) (i : I64) : (intType file_format i.1).1 ≤ 0xffffffff := by
  obtain ⟨type, _⟩ | ⟨type, _⟩ | ⟨written, _⟩ := intType_cases file_format i
  · rw [type]
    decide
  · rw [type]
    decide
  · have small : ∀ type ∈ intTypes, type.1 ≤ 0xffffffff := by decide
    exact small _ written

/-- Types have 32 bits. -/
theorem serialType_le (file_format : Int) (field : Field) :
    field.serialType file_format ≤ 0xffffffff := by
  obtain ten | type := serialType_or file_format field
  · omega
  rw [type]
  cases field with
  | null zero => exact Nat.zero_le _
  | int i => exact intType_le file_format i
  | intReal i =>
    simp only [sqlite3VdbeSerialType]
    split
    · decide
    · exact intType_le file_format i
  | real r => exact Nat.le_of_ble_eq_true rfl
  | str z | blob z zero =>
    simp only [sqlite3VdbeSerialType]
    omega

/-- Types have 32 bits. -/
theorem typed_small : ∀ pair ∈ typed file_format fields, pair.2 ≤ 0xffffffff := by
  intro pair member
  obtain ⟨field, _, rfl⟩ := List.mem_map.mp member
  exact serialType_le file_format field

/-- In a record that is short enough no type is cut. -/
theorem types_of_short
    (short : (Psm.vdbeMakeRecord (columns file_format fields)).length < 0x7fffff00) :
    ∀ field ∈ fields, field.serialType file_format = (field.column file_format).serialType := by
  intro field member
  have content := length_content_le (List.mem_map_of_mem (f := Field.column file_format) member)
  refine field.serialType_eq file_format ?_
  simp only [Psm.vdbeMakeRecord, length_append, columns] at short
  omega

/-- Without counted zeros the record is that of the columns, if there can be memory for it. -/
theorem vdbeMakeRecord_eq (alloc : Nat → Bool) (noZeros : ∀ field ∈ fields, field.nZero = 0)
    {record : Bytes} {nHdr : Nat}
    (isRecord : record = Psm.vdbeMakeRecord (columns file_format fields))
    (isHeader : nHdr = headerSize (headerTypes (columns file_format fields)).length)
    (short : record.length < 0x7fffff00) :
    vdbeMakeRecord alloc file_format fields =
      if alloc record.length then
        some ⟨nHdr, record.length, some ⟨record, nHdr, record.length⟩⟩
      else none := by
  have types := typeBytes_eq (types_of_short (isRecord ▸ short))
  have bodies := contentBytes_eq noZeros (types_of_short (isRecord ▸ short))
  rw [← types] at isHeader
  rw [Psm.vdbeMakeRecord, ← types, ← bodies, ← isHeader] at isRecord
  have lengths := congrArg List.length isRecord
  simp only [length_append] at lengths
  have size := headerSize_eq (typeBytes (typed file_format fields)).length (by omega)
  rw [← isHeader] at size
  obtain ⟨pairs, header⟩ := sizes_types file_format fields
  rw [Nat.mod_eq_of_lt (by omega)] at header
  have whole : wholeHeader (typeBytes (typed file_format fields)).length = nHdr := by
    rw [isHeader]
    exact wholeHeader_eq (by omega)
  have data : (fields.foldr (sizeStep file_format) ⟨0, 0, []⟩).nData = _ := sizes_nData noZeros
  rw [← bodies, Nat.mod_eq_of_lt (by omega)] at data
  have total : record.length = nHdr + (contentBytes (typed file_format fields)).length := by omega
  have nByte : (nHdr + (contentBytes (typed file_format fields)).length) % 2 ^ 32 =
      record.length := by
    rw [← total]
    exact Nat.mod_eq_of_lt (by omega)
  have given : sqlite3Malloc alloc record.length = alloc record.length := by
    have positive := Varint.length_pos nHdr
    rw [← Varint.length_put] at positive
    have range : 0 < record.length ∧ record.length < 0x7fffff00 := ⟨by omega, short⟩
    simp only [sqlite3Malloc, range, and_self, decide_true, Bool.true_and]
  have written := written_eq size total (by omega)
  rw [← isRecord] at written
  simp only [vdbeMakeRecord, pairs, header, whole, data, nByte, given, Option.bind_eq_bind, written]

/-- The record of columns is read back. -/
theorem decodeRecord_columns
    (short : (Psm.vdbeMakeRecord (columns file_format fields)).length < 0x7fffff00) :
    decodeRecord (Psm.vdbeMakeRecord (columns file_format fields)) =
      some (fields.map Field.value) := by
  have types := types_of_short short
  have header := typeBytes_eq types
  have typesShort : (headerTypes (columns file_format fields)).length < 0x7fffff00 := by
    simp only [Psm.vdbeMakeRecord, length_append] at short
    omega
  have read := decodeRecord_eq (typed file_format fields) (contents (columns file_format fields))
    (by rw [header]; omega) typed_small
  have sameTypes : (typed file_format fields).map Prod.snd =
      (columns file_format fields).map Column.serialType := by
    simp only [typed, columns, List.map_map]
    exact List.map_congr_left types
  have values : (columns file_format fields).map Column.value = fields.map Field.value := by
    simp only [columns, List.map_map]
    exact List.map_congr_left fun field _ => field.column_value file_format
  rw [header, sameTypes, decodeBody_columns, values] at read
  exact read

/-- What is known of a record for which memory was found. -/
theorem vdbeMakeRecord_some {alloc : Nat → Bool} {made : Made}
    (returned : vdbeMakeRecord alloc file_format fields = some made) :
    made.nByte < 0x7fffff00 ∧
      made.nHdr = wholeHeader ((typeBytes (typed file_format fields)).length % 2 ^ 32) ∧
      made.written = (store (replicate made.nByte 0) ⟨0, Varint.put made.nHdr⟩).bind fun z =>
        writeLoop (typed file_format fields) ⟨z, (Varint.put made.nHdr).length, made.nHdr⟩ := by
  obtain ⟨pairs, header⟩ := sizes_types file_format fields
  simp only [vdbeMakeRecord, pairs, header, Option.bind_eq_bind] at returned
  split at returned
  · next given =>
    cases returned
    have short := (sqlite3Malloc_iff.mp given).1.2
    refine ⟨short, rfl, ?_⟩
    dsimp only
  · cases returned

/-- A record inside its memory has types and contents in place. -/
theorem written_exact {nHdr nByte : Nat} {w : Written} (short : nByte < 0x7fffff00)
    (header : nHdr = wholeHeader ((typeBytes pairs).length % 2 ^ 32))
    (written : ((store (replicate nByte 0) ⟨0, Varint.put nHdr⟩).bind fun z =>
      writeLoop pairs ⟨z, (Varint.put nHdr).length, nHdr⟩) = some w) :
    (typeBytes pairs).length < 0x7fffff00 ∧ nHdr = headerSize (typeBytes pairs).length ∧
      w.j = nHdr + (contentBytes pairs).length := by
  obtain ⟨z, stored, loop⟩ := Option.bind_eq_some_iff.mp written
  obtain ⟨inside, size⟩ := store_some stored
  rw [length_replicate] at inside size
  simp only [Nat.zero_add] at inside
  obtain ⟨⟨i, boundI⟩, j⟩ := writeLoop_positions (by simp only [size]; omega)
    (by simp only [size]; omega) loop
  simp only [size] at i boundI j
  have typesShort : (typeBytes pairs).length < 0x7fffff00 := by omega
  rw [Nat.mod_eq_of_lt (by omega), wholeHeader_eq (by omega)] at header
  have whole := headerSize_eq (typeBytes pairs).length (by omega)
  rw [← header] at whole
  exact ⟨typesShort, header, j (by omega)⟩

/-- Fields that round trip have no counted zeros. -/
theorem Made.RoundTrips.exact {alloc : Nat → Bool} {made : Made}
    (returned : vdbeMakeRecord alloc file_format fields = some made)
    (right : made.RoundTrips fields) :
    (∀ field ∈ fields, field.nZero = 0) ∧
      (Psm.vdbeMakeRecord (columns file_format fields)).length < 0x7fffff00 := by
  obtain ⟨w, written, _, atEnd, decoded⟩ := right
  obtain ⟨short, header, passes⟩ := vdbeMakeRecord_some returned
  rw [passes] at written
  obtain ⟨typesShort, header, j⟩ := written_exact short header written
  have size := headerSize_eq (typeBytes (typed file_format fields)).length (by omega)
  rw [← header] at size
  have total : made.nByte = made.nHdr + (contentBytes (typed file_format fields)).length := by
    omega
  cases (written_eq size total (by omega)).symm.trans written
  simp only [header] at decoded
  rw [decodeRecord_eq _ _ (by omega) typed_small] at decoded
  obtain ⟨room, types⟩ := decodeBody_exact decoded
  have noZeros : ∀ field ∈ fields, field.nZero = 0 := by
    intro field member
    exact List.sum_eq_zero_iff.mp (by omega) _ (List.mem_map_of_mem member)
  refine ⟨noZeros, ?_⟩
  rw [length_record _ (by rw [← typeBytes_eq types]; omega), ← typeBytes_eq types,
    ← contentBytes_eq noZeros types, ← header, ← total]
  exact short

end

/-- Shortage of memory apart, a key has a record that gives its fields back exactly if no field has
counted zeros and the record is short enough for the allocator. -/
theorem vdbeMakeRecord_encodes_iff (file_format : Int)
    (fields : {fields : List Field // fields ≠ []}) :
    Encodes file_format fields.1 ↔
      (∀ field ∈ fields.1, field.nZero = 0) ∧
        (Psm.vdbeMakeRecord (columns file_format fields.1)).length < 0x7fffff00 := by
  constructor
  · rintro ⟨⟨made, returned⟩, right⟩
    exact (right _ made returned).exact returned
  · rintro ⟨noZeros, short⟩
    refine ⟨⟨_, vdbeMakeRecord_eq (fun _ => true) noZeros rfl rfl short⟩, ?_⟩
    intro alloc made returned
    rw [vdbeMakeRecord_eq alloc noZeros rfl rfl short] at returned
    split at returned
    · cases returned
      exact ⟨_, rfl, rfl, rfl, decodeRecord_columns short⟩
    · cases returned

/-- A counted zero before the integer 5: the size includes it but the content does not, and the
second assertion fails. Behind it, the record ends before the zero. -/
theorem vdbeMakeRecord_leaves_out_zeros :
    let five : Field := .int ⟨5, by decide⟩
    let zeros : Field := .blob ⟨[], by decide⟩ (some ⟨1, by decide⟩)
    let inFront : Made := ⟨3, 5, some ⟨[3, 14, 1, 5, 0], 3, 4⟩⟩
    let behind : Made := ⟨3, 4, some ⟨[3, 1, 14, 5], 3, 4⟩⟩
    vdbeMakeRecord (fun _ => true) 4 [zeros, five] = some inFront ∧
      decodeRecord [3, 14, 1, 5, 0] = some [.blob [5], .int 0] ∧
      ¬Encodes 4 [zeros, five] ∧
      vdbeMakeRecord (fun _ => true) 4 [five, zeros] = some behind ∧
      decodeRecord [3, 1, 14, 5] = none ∧
      ¬Encodes 4 [five, zeros] := by
  intro five zeros inFront behind
  have front : vdbeMakeRecord (fun _ => true) 4 [zeros, five] = some inFront := by decide +kernel
  have back : vdbeMakeRecord (fun _ => true) 4 [five, zeros] = some behind := by decide +kernel
  have cut : decodeRecord [3, 1, 14, 5] = none := by decide +kernel
  refine ⟨front, by decide +kernel, ?_, back, cut, ?_⟩
  · intro encodes
    obtain ⟨w, written, _, atEnd, _⟩ := encodes.2 _ _ front
    cases written
    exact absurd atEnd (by decide)
  · intro encodes
    obtain ⟨w, written, _, _, decoded⟩ := encodes.2 _ _ back
    cases written
    rw [cut] at decoded
    cases decoded

end SQLumDash.Psm.MakeRecord
