import SQLumDash.Psm.Record

/-!
# When two records count as the same

Reading a record gives its columns back, so records are compared column by column. All columns are
compared with the collating sequence of the first one, hence records count as the same exactly when
the index says so as long as no column distinguishes other texts than the first one would.
-/

namespace SQLumDash.Psm

open List (length_append append_assoc drop_left)

/-! ## Reading a record -/

/-- A written number is read back. -/
theorem getVarint32_put (value : Nat) (rest : Bytes) (fits : value ≤ 0xffffffff) :
    getVarint32 (Varint.put value ++ rest) = (value, (Varint.put value).length) := by
  have read := Varint.get_put value rest (by omega)
  simp only [getVarint32, read, fits, if_true]

/-- The length of a text or a blob. -/
theorem serialTypeLen_large (code : Nat) : sqlite3VdbeSerialTypeLen (code + 12) = code / 2 := by
  simp only [sqlite3VdbeSerialTypeLen, Nat.add_sub_cancel]

/-- A read takes as many bytes as the type says. -/
theorem sqlite3VdbeSerialGet_length (buf : Bytes) (serialType : Nat) :
    (sqlite3VdbeSerialGet buf serialType).2 = sqlite3VdbeSerialTypeLen serialType := by
  unfold sqlite3VdbeSerialGet
  split
  case h_7 => cases Double.ofBits (bigEndian (buf.take 8)) <;> rfl
  case h_10 code =>
    rw [serialTypeLen_large]
    split <;> rfl
  case h_11 beyond =>
    -- The types 0, 10 and 11 have no bytes.
    have small : serialType < 12 := by
      by_contra large
      exact beyond (serialType - 12) (by omega)
    simp only [sqlite3VdbeSerialTypeLen]
    omega
  all_goals rfl

/-- A value is read from its own bytes alone. -/
theorem sqlite3VdbeSerialGet_take (buf : Bytes) (serialType : Nat) :
    (sqlite3VdbeSerialGet (buf.take (sqlite3VdbeSerialTypeLen serialType)) serialType).1 =
      (sqlite3VdbeSerialGet buf serialType).1 := by
  have again (n : Nat) : (buf.take n).take n = buf.take n := by
    rw [List.take_take, Nat.min_self]
  unfold sqlite3VdbeSerialGet
  split
  case h_10 code => rw [serialTypeLen_large, again]
  case h_11 => rfl
  all_goals simp only [sqlite3VdbeSerialTypeLen, again]

/-- Reading a column gives its value. -/
theorem Column.read (column : Column) (rest : Bytes) :
    sqlite3VdbeSerialGet (column.content ++ rest) column.serialType =
      (column.value, column.content.length) := by
  have front : (column.content ++ rest).take (sqlite3VdbeSerialTypeLen column.serialType) =
      column.content := List.take_left' column.sized
  have value := sqlite3VdbeSerialGet_take (column.content ++ rest) column.serialType
  have length := sqlite3VdbeSerialGet_length (column.content ++ rest) column.serialType
  rw [front] at value
  rw [← column.sized] at length
  exact Prod.ext value.symm length

/-- The types of one column more. -/
@[simp] theorem headerTypes_cons (column : Column) (columns : List Column) :
    headerTypes (column :: columns) = Varint.put column.serialType ++ headerTypes columns := rfl

/-- The content of one column more. -/
@[simp] theorem contents_cons (column : Column) (columns : List Column) :
    contents (column :: columns) = column.content ++ contents columns := rfl

/-- The loop stands at the given columns of a record. -/
structure At (aKey : Bytes) (szHdr idx d : Nat) (columns : List Column) : Prop where
  types : ∃ rest, aKey.drop idx = headerTypes columns ++ rest
  body : aKey.drop d = contents columns
  header : idx + (headerTypes columns).length = szHdr
  inside : d ≤ aKey.length
  small : ∀ column ∈ columns, column.serialType ≤ 0xffffffff

namespace At

variable {aKey : Bytes} {szHdr idx d : Nat} {column : Column} {columns : List Column}

/-- The header ends exactly when there is no column left. -/
theorem at_end (stands : At aKey szHdr idx d []) : ¬ idx < szHdr := by
  have header := stands.header
  simp only [headerTypes, List.flatMap_nil, List.length_nil] at header
  omega

section

variable (stands : At aKey szHdr idx d (column :: columns))

include stands

/-- A column is left to read. -/
theorem before_end : idx < szHdr := by
  have header := stands.header
  have positive := Varint.length_pos column.serialType
  rw [headerTypes_cons, length_append, Varint.length_put] at header
  omega

/-- Its type is read. -/
theorem type_read :
    getVarint32 (aKey.drop idx) = (column.serialType, (Varint.put column.serialType).length) := by
  obtain ⟨rest, types⟩ := stands.types
  rw [types, headerTypes_cons, append_assoc]
  exact getVarint32_put column.serialType _ (stands.small column List.mem_cons_self)

/-- Its value is read. -/
theorem value_read : sqlite3VdbeSerialGet (aKey.drop d) column.serialType =
      (column.value, column.content.length) := by
  rw [stands.body, contents_cons]
  exact column.read (contents columns)

/-- The positions behind a column stand at the next one. -/
theorem next :
    At aKey szHdr (idx + (Varint.put column.serialType).length) (d + column.content.length)
      columns := by
  obtain ⟨rest, types⟩ := stands.types
  have body := stands.body
  have header := stands.header
  have inside := stands.inside
  rw [headerTypes_cons, append_assoc] at types
  rw [contents_cons] at body
  rw [headerTypes_cons, length_append] at header
  refine ⟨⟨rest, ?_⟩, ?_, by omega, ?_, fun other member =>
    stands.small other (List.mem_cons_of_mem _ member)⟩
  · rw [← List.drop_drop, types, drop_left]
  · rw [← List.drop_drop, body, drop_left]
  · have length := congrArg List.length body
    rw [List.length_drop, length_append] at length
    omega

end

end At

/-- Compare columns in turn, as far as both have them. -/
def compareColumns (compare : Column → Column → Int) : List Column → List Column → Int
  | column1 :: rest1, column2 :: rest2 =>
    if compare column1 column2 ≠ 0 then compare column1 column2
    else compareColumns compare rest1 rest2
  | _, _ => 0

section

variable (convert : Encoding → Encoding → Bytes → Bytes)

/-- Compare under the collating sequence passed for all. -/
def comparePassed (pColl : Option CollSeq) (column1 column2 : Column) : Int :=
  sqlite3MemCompare convert (assumedEnc pColl) column1.value column2.value pColl

/-- The loop compares the columns. -/
theorem recordLoop_columns {aKey1 aKey2 : Bytes} {szHdr1 szHdr2 : Nat} (pColl : Option CollSeq)
    (columns1 columns2 : List Column) (fuel idx1 d1 idx2 d2 : Nat)
    (enough : columns1.length ≤ fuel) (at1 : At aKey1 szHdr1 idx1 d1 columns1)
    (at2 : At aKey2 szHdr2 idx2 d2 columns2) :
    recordLoop convert aKey1 aKey2 szHdr1 szHdr2 (assumedEnc pColl) pColl fuel idx1 d1 idx2 d2 =
      compareColumns (comparePassed convert pColl) columns1 columns2 := by
  induction columns1 generalizing columns2 fuel idx1 d1 idx2 d2 with
  | nil =>
    cases fuel with
    | zero => rfl
    | succ fuel =>
      rw [recordLoop, if_neg fun inside => at1.at_end inside.1]
      rfl
  | cons column1 rest1 ih =>
    cases fuel with
    | zero => simp at enough
    | succ fuel =>
      cases columns2 with
      | nil =>
        rw [recordLoop, if_neg fun inside => at2.at_end inside.2.2.1]
        rfl
      | cons column2 rest2 =>
        have inside : idx1 < szHdr1 ∧ d1 ≤ aKey1.length ∧ idx2 < szHdr2 ∧ d2 ≤ aKey2.length :=
          ⟨at1.before_end, at1.inside, at2.before_end, at2.inside⟩
        have rest := ih rest2 fuel _ _ _ _ (by simpa using enough) at1.next at2.next
        rw [recordLoop, if_pos inside]
        simp only [at1.type_read, at2.type_read, at1.value_read, at2.value_read, rest]
        rfl

end

/-! ## The size of a record -/

/-- The size of a header counts the bytes that hold it. -/
theorem headerSize_eq (nTypes : Nat) (small : nTypes < 2 ^ 32) :
    (Varint.put (headerSize nTypes)).length + nTypes = headerSize nTypes := by
  have positive := Varint.length_pos nTypes
  rw [Varint.length_put, headerSize]
  by_cases single : nTypes ≤ 126
  · have one := (Varint.length_le_iff (nTypes + 1) 0 (by omega)).mpr (by omega)
    have some := Varint.length_pos (nTypes + 1)
    rw [if_pos single]
    omega
  rw [if_neg single]
  have five : Varint.length nTypes ≤ 5 :=
    (Varint.length_le_iff nTypes 4 (by omega)).mpr (by omega)
  have grows := Varint.length_mono (Nat.le_add_right nTypes (Varint.length nTypes))
  dsimp only
  split
  case isTrue longer =>
    -- The size takes one more byte than the types alone would, but not two.
    have below : nTypes < 128 ^ (Varint.length nTypes - 1 + 1) :=
      (Varint.length_le_iff nTypes (Varint.length nTypes - 1) (by omega)).mp (by omega)
    rw [Nat.sub_add_cancel positive] at below
    have room : nTypes + Varint.length nTypes + 1 < 128 ^ (Varint.length nTypes + 1) := by
      rw [pow_succ]
      omega
    have upper := (Varint.length_le_iff (nTypes + Varint.length nTypes + 1)
      (Varint.length nTypes) (by omega)).mpr room
    have lower := Varint.length_mono (show nTypes + Varint.length nTypes ≤
      nTypes + Varint.length nTypes + 1 by omega)
    omega
  case isFalse same => omega

/-- More types need a larger header. -/
theorem headerSize_mono {low high : Nat} (le : low ≤ high) : headerSize low ≤ headerSize high := by
  have lengths := Varint.length_mono le
  have positive := Varint.length_pos low
  have sums : Varint.length (low + Varint.length low) ≤
      Varint.length (high + Varint.length high) := Varint.length_mono (by omega)
  simp only [headerSize]
  split_ifs <;> omega

/-- Longer types and contents need a longer record. -/
theorem length_vdbeMakeRecord_mono {columns larger : List Column}
    (types : (headerTypes columns).length ≤ (headerTypes larger).length)
    (bodies : (contents columns).length ≤ (contents larger).length) :
    (vdbeMakeRecord columns).length ≤ (vdbeMakeRecord larger).length := by
  have sizes := Varint.length_mono (headerSize_mono types)
  simp only [vdbeMakeRecord, length_append, Varint.length_put]
  omega

section

variable {columns : List Column}

/-- The types of a record that fits. -/
theorem Fits.types (fits : Fits columns) : (headerTypes columns).length < 2 ^ 32 := by
  simp only [Fits, vdbeMakeRecord, length_append, sqliteMaxLength] at fits
  omega

/-- The header of one that fits. -/
theorem Fits.header (fits : Fits columns) :
    headerSize (headerTypes columns).length ≤ sqliteMaxLength := by
  have size := headerSize_eq _ fits.types
  simp only [Fits, vdbeMakeRecord, length_append] at fits
  omega

/-- A content is part of the body. -/
theorem length_content_le {column : Column} (member : column ∈ columns) :
    column.content.length ≤ (contents columns).length := by
  obtain ⟨before, after, rfl⟩ := List.append_of_mem member
  simp only [contents, List.flatMap_append, List.flatMap_cons, length_append]
  omega

/-- The type of a column is read as it is. -/
theorem Fits.serialType {column : Column} (fits : Fits columns) (member : column ∈ columns) :
    column.serialType ≤ 0xffffffff := by
  have content := length_content_le member
  have sized := column.sized
  simp only [Fits, vdbeMakeRecord, length_append, sqliteMaxLength] at fits
  by_cases large : 12 ≤ column.serialType
  · obtain ⟨code, exact⟩ : ∃ code, column.serialType = code + 12 :=
      ⟨column.serialType - 12, by omega⟩
    rw [exact, serialTypeLen_large] at sized
    omega
  · omega

/-- Every column has a byte in the header. -/
theorem length_le_headerTypes (columns : List Column) :
    columns.length ≤ (headerTypes columns).length := by
  induction columns with
  | nil => exact Nat.zero_le _
  | cons column columns ih =>
    have positive := Varint.length_pos column.serialType
    rw [headerTypes_cons, length_append, Varint.length_put, List.length_cons]
    omega

/-- The header is read as its size. -/
theorem Fits.header_read (fits : Fits columns) :
    getVarint32 (vdbeMakeRecord columns) = (headerSize (headerTypes columns).length,
      (Varint.put (headerSize (headerTypes columns).length)).length) := by
  have header := fits.header
  unfold sqliteMaxLength at header
  rw [vdbeMakeRecord, append_assoc]
  exact getVarint32_put _ _ (by omega)

/-- The comparison starts at the first columns. -/
theorem Fits.starts (fits : Fits columns) :
    At (vdbeMakeRecord columns) (headerSize (headerTypes columns).length)
      (Varint.put (headerSize (headerTypes columns).length)).length
      (headerSize (headerTypes columns).length) columns := by
  have size := headerSize_eq _ fits.types
  have split : (Varint.put (headerSize (headerTypes columns).length) ++
      headerTypes columns).length = headerSize (headerTypes columns).length := by
    rw [length_append]
    exact size
  refine ⟨⟨contents columns, ?_⟩, ?_, size, ?_, fun column member => fits.serialType member⟩
  · rw [vdbeMakeRecord, append_assoc, drop_left]
  · rw [vdbeMakeRecord]
    nth_rewrite 1 [← split]
    exact drop_left
  · rw [vdbeMakeRecord, length_append, split]
    omega

end

/-- The comparison of two records is that of their columns. -/
theorem recordComparator_eq (convert : Encoding → Encoding → Bytes → Bytes)
    (pColl : Option CollSeq) {columns1 columns2 : List Column} (fits1 : Fits columns1)
    (fits2 : Fits columns2) :
    recordComparator convert (vdbeMakeRecord columns1) (vdbeMakeRecord columns2) pColl =
      compareColumns (comparePassed convert pColl) columns1 columns2 := by
  have count := length_le_headerTypes columns1
  have size := headerSize_eq _ fits1.types
  simp only [recordComparator, fits1.header_read, fits2.header_read]
  exact recordLoop_columns convert pColl columns1 columns2 _ _ _ _ _ (by omega) fits1.starts
    fits2.starts

/-! ## Equality of records -/

/-- Records count as the same when each column of both does. -/
theorem compareColumns_eq_zero_iff (compare : Column → Column → Int)
    (columns1 columns2 : List Column) :
    compareColumns compare columns1 columns2 = 0 ↔
      ∀ (i : Nat) column1 column2, columns1[i]? = some column1 → columns2[i]? = some column2 →
        compare column1 column2 = 0 := by
  induction columns1 generalizing columns2 with
  | nil => simp [compareColumns]
  | cons first1 rest1 ih =>
    cases columns2 with
    | nil => simp [compareColumns]
    | cons first2 rest2 =>
      rw [compareColumns]
      constructor
      · intro zero i column1 column2 found1 found2
        split at zero
        case isTrue different => exact absurd zero different
        case isFalse same =>
          cases i with
          | zero =>
            cases found1
            cases found2
            exact not_not.mp same
          | succ i => exact (ih rest2).mp zero i column1 column2 found1 found2
      · intro equal
        rw [if_neg (not_not.mpr (equal 0 first1 first2 rfl rfl))]
        exact (ih rest2).mpr fun i column1 column2 found1 found2 =>
          equal (i + 1) column1 column2 found1 found2

section

variable (convert : Encoding → Encoding → Bytes → Bytes)

/-- A text is read back. -/
@[simp] theorem Column.value_text (z : Bytes) : (Column.text z).value = .str z := by
  have odd : (2 * z.length + 1) % 2 = 1 := by omega
  have half : (2 * z.length + 1) / 2 = z.length := by omega
  simp [Column.value, Column.text, sqlite3VdbeSerialGet, odd, half]

/-- A column whose value is a text is that text. -/
theorem Column.eq_text {column : Column} {z : Bytes} (value : column.value = .str z) :
    column = Column.text z := by
  obtain ⟨serialType, content, sized⟩ := column
  unfold Column.value sqlite3VdbeSerialGet at value
  dsimp only at value
  split at value <;> try cases value
  case h_7 => split at value <;> cases value
  case h_10 code =>
    rw [serialTypeLen_large] at sized
    split at value <;> cases value
    case isFalse odd =>
      have whole : content.take (code / 2) = content := List.take_of_length_le sized.le
      have type : code = 2 * content.length + 1 := by omega
      subst type
      simp only [Column.text, whole]

/-- Values that are not both texts need no collating sequence. -/
theorem sqlite3MemCompare_congr (value1 value2 : Mem) {enc enc' : Encoding}
    {pColl pColl' : Option CollSeq}
    (texts : ∀ z1 z2, value1 = .str z1 → value2 = .str z2 →
      (sqlite3MemCompare convert enc (.str z1) (.str z2) pColl = 0 ↔
        sqlite3MemCompare convert enc' (.str z1) (.str z2) pColl' = 0)) :
    sqlite3MemCompare convert enc value1 value2 pColl = 0 ↔
      sqlite3MemCompare convert enc' value1 value2 pColl' = 0 := by
  cases value1 <;> cases value2 <;> first | exact Iff.rfl | exact texts _ _ rfl rfl

/-- The record whose only text is at one column. -/
def textAt (i : Nat) (z : Bytes) : List Column := List.replicate i Column.null ++ [Column.text z]

/-- A text that a column of the index can hold. -/
def KeyInfo.Storable (pKeyInfo : KeyInfo) (i : Nat) (z : Bytes) : Prop :=
  i < pKeyInfo.nAllField ∧ Fits (textAt i z)

/-- The first collating sequence, on the stored bytes, equates the same texts as that of any column.
-/
def KeyInfo.SameTexts (pKeyInfo : KeyInfo) : Prop :=
  ∀ i z1 z2, pKeyInfo.Storable i z1 → pKeyInfo.Storable i z2 →
    (comparePassed convert (pKeyInfo.aColl 0) (Column.text z1) (Column.text z2) = 0 ↔
      pKeyInfo.compareColumn convert i (Column.text z1) (Column.text z2) = 0)

/-- A record with one text is the shortest. -/
theorem length_types_textAt_le (columns : List Column) (i : Nat) (z : Bytes)
    (found : columns[i]? = some (Column.text z)) :
    (headerTypes (textAt i z)).length ≤ (headerTypes columns).length ∧
      (contents (textAt i z)).length ≤ (contents columns).length := by
  induction columns generalizing i with
  | nil => simp at found
  | cons column columns ih =>
    rw [headerTypes_cons, contents_cons, length_append, length_append]
    cases i with
    | zero =>
      cases found
      simp [textAt, headerTypes, contents]
    | succ i =>
      -- NULL takes one byte in the header and none in the content.
      have rest := ih i found
      have null : (Varint.put Column.null.serialType).length = 1 := rfl
      have empty : Column.null.content.length = 0 := rfl
      have positive := Varint.length_pos column.serialType
      rw [← Varint.length_put] at positive
      have shape : textAt (i + 1) z = Column.null :: textAt i z := rfl
      rw [shape, headerTypes_cons, contents_cons, length_append, length_append]
      omega

/-- A text of a record that fits is storable. -/
theorem Fits.storable {pKeyInfo : KeyInfo} {columns : List Column} (fits : Fits columns)
    (fields : columns.length ≤ pKeyInfo.nAllField) {i : Nat} {z : Bytes}
    (found : columns[i]? = some (Column.text z)) : pKeyInfo.Storable i z := by
  have inside : i < columns.length := (List.getElem?_eq_some_iff.mp found).1
  have sizes := length_types_textAt_le columns i z found
  exact ⟨by omega, (length_vdbeMakeRecord_mono sizes.1 sizes.2).trans fits⟩

/-- The text is in its column. -/
theorem textAt_get (i : Nat) (z : Bytes) : (textAt i z)[i]? = some (Column.text z) := by
  simp [textAt]

/-- The columns before it are NULL. -/
theorem textAt_get_lt {i j : Nat} (z : Bytes) (lt : j < i) :
    (textAt i z)[j]? = some Column.null := by
  simp [textAt, List.getElem?_append, lt]

/-- Records with one text are compared by it. -/
theorem compare_textAt_iff (compare : Nat → Column → Column → Int)
    (nulls : ∀ j, compare j Column.null Column.null = 0) (i : Nat) (z1 z2 : Bytes) :
    (∀ (j : Nat) column1 column2, (textAt i z1)[j]? = some column1 →
      (textAt i z2)[j]? = some column2 → compare j column1 column2 = 0) ↔
      compare i (Column.text z1) (Column.text z2) = 0 := by
  constructor
  · intro equal
    exact equal i _ _ (textAt_get i z1) (textAt_get i z2)
  · intro equal j column1 column2 found1 found2
    have inside : j < (textAt i z1).length := (List.getElem?_eq_some_iff.mp found1).1
    have length : (textAt i z1).length = i + 1 := by simp [textAt]
    by_cases last : j = i
    · subst last
      rw [textAt_get] at found1 found2
      cases found1
      cases found2
      exact equal
    · have before : j < i := by omega
      rw [textAt_get_lt _ before] at found1 found2
      cases found1
      cases found2
      exact nulls j

/-- Records of an index count as the same exactly when the index says so, if and only if the
collating sequence of the first column equates the same texts as each column's own one. -/
theorem recordComparator_agrees_iff (pKeyInfo : KeyInfo) :
    (∀ columns1 columns2, Fits columns1 → Fits columns2 →
      columns1.length ≤ pKeyInfo.nAllField → columns2.length ≤ pKeyInfo.nAllField →
      (recordComparator convert (vdbeMakeRecord columns1) (vdbeMakeRecord columns2)
          (pKeyInfo.aColl 0) = 0 ↔
        ∀ (i : Nat) column1 column2, columns1[i]? = some column1 → columns2[i]? = some column2 →
          pKeyInfo.compareColumn convert i column1 column2 = 0)) ↔
      pKeyInfo.SameTexts convert := by
  constructor
  · intro agrees i z1 z2 storable1 storable2
    have fields : ∀ z, (textAt i z).length ≤ pKeyInfo.nAllField := by
      intro z
      simpa [textAt] using Nat.succ_le_of_lt storable1.1
    have same := agrees (textAt i z1) (textAt i z2) storable1.2 storable2.2 (fields z1) (fields z2)
    rw [recordComparator_eq convert _ storable1.2 storable2.2, compareColumns_eq_zero_iff,
      compare_textAt_iff (fun _ => comparePassed convert (pKeyInfo.aColl 0)) (fun _ => rfl),
      compare_textAt_iff (pKeyInfo.compareColumn convert) (fun _ => rfl)] at same
    exact same
  · intro same columns1 columns2 fits1 fits2 fields1 fields2
    rw [recordComparator_eq convert _ fits1 fits2, compareColumns_eq_zero_iff]
    -- Column by column: only two texts can be compared differently.
    have column : ∀ (i : Nat) column1 column2, columns1[i]? = some column1 →
        columns2[i]? = some column2 →
        (comparePassed convert (pKeyInfo.aColl 0) column1 column2 = 0 ↔
          pKeyInfo.compareColumn convert i column1 column2 = 0) := by
      intro i column1 column2 found1 found2
      refine sqlite3MemCompare_congr convert column1.value column2.value fun z1 z2 text1 text2 => ?_
      obtain rfl := Column.eq_text text1
      obtain rfl := Column.eq_text text2
      have texts := same i z1 z2 (fits1.storable fields1 found1) (fits2.storable fields2 found2)
      simpa only [comparePassed, KeyInfo.compareColumn, Column.value_text] using texts
    exact ⟨fun equal i column1 column2 found1 found2 =>
        (column i column1 column2 found1 found2).mp (equal i column1 column2 found1 found2),
      fun equal i column1 column2 found1 found2 =>
        (column i column1 column2 found1 found2).mpr (equal i column1 column2 found1 found2)⟩

end

/-- One column ignores case, the other does not. -/
def mixedIndex : KeyInfo := ⟨.utf8, 3, fun i => if i = 0 then some nocase else none⟩

/-- The locked record ('a', 'x', 1) and the key ('a', 'X') count as the same, though the second
column tells them apart. -/
theorem case_of_second_column_ignored :
    let locked := [Column.text [97], Column.text [120], Column.byte 1]
    let key := [Column.text [97], Column.text [88]]
    Fits locked ∧ Fits key ∧
      recordComparator (fun _ _ z => z) (vdbeMakeRecord locked) (vdbeMakeRecord key)
        (mixedIndex.aColl 0) = 0 ∧
      mixedIndex.compareColumn (fun _ _ z => z) 1 (Column.text [120]) (Column.text [88]) ≠ 0 := by
  decide

end SQLumDash.Psm
