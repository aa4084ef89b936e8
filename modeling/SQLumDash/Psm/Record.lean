import SQLumDash.Lib.Varint

/-!
# Serialized records and their comparison

A header with its own size and the serial types, followed by the contents. The index locks compare
two records column by column with one collating sequence, as far as both have columns.
-/

namespace SQLumDash.Psm

/-- Bytes in the order they are stored. -/
abbrev Bytes := List UInt8

/-- `SQLITE_MAX_LENGTH`: no record is longer. -/
def sqliteMaxLength : Nat := 1000000000

/-- `getVarint32`: more than 32 bits are read as the largest number. -/
def getVarint32 (p : Bytes) : Nat × Nat :=
  let (v64, n) := Varint.get p
  (if v64 ≤ 0xffffffff then v64 else 0xffffffff, n)

/-- A multiple of the smallest positive double, or an infinity. -/
inductive Double where
  | finite (units : Int)
  | infinite (negative : Bool)
deriving DecidableEq, Repr

/-- The double with the bits, unless it is not a number. -/
def Double.ofBits (x : Nat) : Option Double :=
  let exponent : Nat := x / 2 ^ 52 % 2 ^ 11
  let fraction : Nat := x % 2 ^ 52
  let negative := decide (2 ^ 63 ≤ x)
  if exponent = 2047 then
    if fraction = 0 then some (.infinite negative) else none
  else
    let units : Nat := if exponent = 0 then fraction else (2 ^ 52 + fraction) * 2 ^ (exponent - 1)
    some (.finite (if negative then -(units : Int) else units))

/-- An integer as such a multiple. -/
def Double.ofInt (i : Int) : Double := .finite (i * 2 ^ 1074)

/-- The order of the doubles. -/
def Double.lt : Double → Double → Bool
  | .finite a, .finite b => decide (a < b)
  | .finite _, .infinite negative => !negative
  | .infinite negative, .finite _ => negative
  | .infinite a, .infinite b => a && !b

/-- A value of a column. -/
inductive Mem where
  | null
  | int (i : Int)
  | real (r : Double)
  | str (z : Bytes)
  | blob (z : Bytes)
deriving DecidableEq, Repr

/-- The number that bytes hold, the highest first. -/
def bigEndian (x : Bytes) : Nat := x.foldl (fun high byte => high * 256 + byte.toNat) 0

/-- The number that bytes hold in two's complement. -/
def bigEndianInt (x : Bytes) : Int :=
  if 2 * bigEndian x < 256 ^ x.length then bigEndian x else (bigEndian x : Int) - 256 ^ x.length

/-- `sqlite3VdbeSerialTypeLen` -/
def sqlite3VdbeSerialTypeLen : Nat → Nat
  | 1 => 1
  | 2 => 2
  | 3 => 3
  | 4 => 4
  | 5 => 6
  | 6 => 8
  | 7 => 8
  | serialType => (serialType - 12) / 2

/-- `sqlite3VdbeSerialGet`: the value and the number of its bytes. -/
def sqlite3VdbeSerialGet (buf : Bytes) (serialType : Nat) : Mem × Nat :=
  match serialType with
  | 1 => (.int (bigEndianInt (buf.take 1)), 1)
  | 2 => (.int (bigEndianInt (buf.take 2)), 2)
  | 3 => (.int (bigEndianInt (buf.take 3)), 3)
  | 4 => (.int (bigEndianInt (buf.take 4)), 4)
  | 5 => (.int (bigEndianInt (buf.take 6)), 6)
  | 6 => (.int (bigEndianInt (buf.take 8)), 8)
  | 7 =>
    -- What is not a number is read as NULL.
    match Double.ofBits (bigEndian (buf.take 8)) with
    | some r => (.real r, 8)
    | none => (.null, 8)
  | 8 => (.int 0, 0)
  | 9 => (.int 1, 0)
  | code + 12 =>
    if code % 2 = 0 then (.blob (buf.take (code / 2)), code / 2)
    else (.str (buf.take (code / 2)), code / 2)
  -- NULL, and the types 10 and 11 that are not stored.
  | _ => (.null, 0)

/-- The text encodings. -/
inductive Encoding where
  | utf8
  | utf16le
  | utf16be
deriving DecidableEq, Repr

/-- The encoding it wants and its comparison. -/
structure CollSeq where
  enc : Encoding
  xCmp : Bytes → Bytes → Int

/-- What an index knows of its columns; without a collating sequence, bytes are compared. -/
structure KeyInfo where
  enc : Encoding
  /-- With the trailing columns. -/
  nAllField : Nat
  aColl : Nat → Option CollSeq

/-- `memcmp` over the bytes that both have. -/
def memcmp : Bytes → Bytes → Int
  | a :: rest1, b :: rest2 => if a = b then memcmp rest1 rest2 else (a.toNat : Int) - b.toNat
  | _, _ => 0

/-- `sqlite3BlobCompare` -/
def sqlite3BlobCompare (z1 z2 : Bytes) : Int :=
  if memcmp z1 z2 = 0 then (z1.length : Int) - z2.length else memcmp z1 z2

/-- Compare two numbers by their order. -/
def compareBy {Number : Type} (lt : Number → Number → Bool) (a b : Number) : Int :=
  if lt a b then -1 else if lt b a then 1 else 0

/-- `sqlite3IntFloatCompare` with long doubles. -/
def sqlite3IntFloatCompare (i : Int) (r : Double) : Int := compareBy Double.lt (.ofInt i) r

section

variable (convert : Encoding → Encoding → Bytes → Bytes)

/-- `vdbeCompareMemString`: texts in another encoding are converted. -/
def vdbeCompareMemString (enc : Encoding) (z1 z2 : Bytes) (pColl : CollSeq) : Int :=
  if enc = pColl.enc then pColl.xCmp z1 z2
  else pColl.xCmp (convert enc pColl.enc z1) (convert enc pColl.enc z2)

/-- `sqlite3MemCompare`, for texts in one encoding. -/
def sqlite3MemCompare (enc : Encoding) (pMem1 pMem2 : Mem) (pColl : Option CollSeq) : Int :=
  match pMem1, pMem2 with
  | .null, .null => 0
  | .null, _ => -1
  | _, .null => 1
  | .int i, .int j => compareBy (fun a b => decide (a < b)) i j
  | .real r, .real s => compareBy Double.lt r s
  | .int i, .real r => sqlite3IntFloatCompare i r
  | .int _, _ => -1
  | .real r, .int i => -sqlite3IntFloatCompare i r
  | .real _, _ => -1
  | _, .int _ => 1
  | _, .real _ => 1
  | .str z1, .str z2 =>
    match pColl with
    | some pColl => vdbeCompareMemString convert enc z1 z2 pColl
    | none => sqlite3BlobCompare z1 z2
  | .str _, .blob _ => -1
  | .blob _, .str _ => 1
  | .blob z1, .blob z2 => sqlite3BlobCompare z1 z2

/-- The loop of `recordComparator`, with limited steps. -/
def recordLoop (aKey1 aKey2 : Bytes) (szHdr1 szHdr2 : Nat) (enc : Encoding)
    (pColl : Option CollSeq) : Nat → Nat → Nat → Nat → Nat → Int
  | 0, _, _, _, _ => 0
  | fuel + 1, idx1, d1, idx2, d2 =>
    if idx1 < szHdr1 ∧ d1 ≤ aKey1.length ∧ idx2 < szHdr2 ∧ d2 ≤ aKey2.length then
      let (serialType1, n1) := getVarint32 (aKey1.drop idx1)
      let (serialType2, n2) := getVarint32 (aKey2.drop idx2)
      let (mem1, len1) := sqlite3VdbeSerialGet (aKey1.drop d1) serialType1
      let (mem2, len2) := sqlite3VdbeSerialGet (aKey2.drop d2) serialType2
      let rc := sqlite3MemCompare convert enc mem1 mem2 pColl
      if rc ≠ 0 then rc
      else recordLoop aKey1 aKey2 szHdr1 szHdr2 enc pColl fuel (idx1 + n1) (d1 + len1) (idx2 + n2)
        (d2 + len2)
    else 0

/-- `recordComparator` takes texts to be in the encoding that the collating sequence wants. -/
def assumedEnc : Option CollSeq → Encoding
  | some pColl => pColl.enc
  | none => .utf8

/-- `recordComparator` -/
def recordComparator (aKey1 aKey2 : Bytes) (pColl : Option CollSeq) : Int :=
  let (szHdr1, idx1) := getVarint32 aKey1
  let (szHdr2, idx2) := getVarint32 aKey2
  recordLoop convert aKey1 aKey2 szHdr1 szHdr2 (assumedEnc pColl) pColl szHdr1 idx1 szHdr1 idx2
    szHdr2

end

/-- A serial type with as many bytes as it says. -/
structure Column where
  serialType : Nat
  content : Bytes
  sized : content.length = sqlite3VdbeSerialTypeLen serialType
deriving DecidableEq, Repr

/-- NULL as a column. -/
def Column.null : Column := ⟨0, [], rfl⟩

/-- A text as a column. -/
def Column.text (z : Bytes) : Column :=
  ⟨2 * z.length + 1 + 12, z, by
    simp only [sqlite3VdbeSerialTypeLen]
    omega⟩

/-- An integer between -128 and 127 as a column. -/
def Column.byte (x : UInt8) : Column := ⟨1, [x], rfl⟩

/-- The value of a column. -/
def Column.value (column : Column) : Mem :=
  (sqlite3VdbeSerialGet column.content column.serialType).1

/-- The serial types in the header. -/
def headerTypes (columns : List Column) : Bytes :=
  columns.flatMap fun column => Varint.put column.serialType

/-- The content of the columns. -/
def contents (columns : List Column) : Bytes := columns.flatMap Column.content

/-- The size of a header, which includes the size itself. -/
def headerSize (nTypes : Nat) : Nat :=
  if nTypes ≤ 126 then nTypes + 1
  else
    let nVarint := Varint.length nTypes
    if nVarint < Varint.length (nTypes + nVarint) then nTypes + nVarint + 1 else nTypes + nVarint

/-- `vdbeMakeRecord`, from columns with their types. -/
def vdbeMakeRecord (columns : List Column) : Bytes :=
  Varint.put (headerSize (headerTypes columns).length) ++ headerTypes columns ++ contents columns

/-- Columns that make a record of permitted length. -/
def Fits (columns : List Column) : Prop := (vdbeMakeRecord columns).length ≤ sqliteMaxLength

instance (columns : List Column) : Decidable (Fits columns) :=
  inferInstanceAs (Decidable (_ ≤ _))

/-- Compare under the index's own collating sequence. -/
def KeyInfo.compareColumn (convert : Encoding → Encoding → Bytes → Bytes) (pKeyInfo : KeyInfo)
    (i : Nat) (column1 column2 : Column) : Int :=
  sqlite3MemCompare convert pKeyInfo.enc column1.value column2.value (pKeyInfo.aColl i)

/-- `sqlite3UpperToLower` -/
def sqlite3UpperToLower (byte : UInt8) : UInt8 :=
  if 65 ≤ byte.toNat ∧ byte.toNat ≤ 90 then byte + 32 else byte

/-- `sqlite3StrNICmp`: a zero byte ends the comparison. -/
def sqlite3StrNICmp : Nat → Bytes → Bytes → Int
  | n + 1, a :: rest1, b :: rest2 =>
    if a ≠ 0 ∧ sqlite3UpperToLower a = sqlite3UpperToLower b then sqlite3StrNICmp n rest1 rest2
    else ((sqlite3UpperToLower a).toNat : Int) - (sqlite3UpperToLower b).toNat
  | _, _, _ => 0

/-- `nocaseCollatingFunc` -/
def nocaseCollatingFunc (key1 key2 : Bytes) : Int :=
  let r := sqlite3StrNICmp (min key1.length key2.length) key1 key2
  if r = 0 then (key1.length : Int) - key2.length else r

/-- The collating sequence NOCASE. -/
def nocase : CollSeq := ⟨.utf8, nocaseCollatingFunc⟩

end SQLumDash.Psm
