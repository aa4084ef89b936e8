import SQLumDash.Basic
import SQLumDash.Lib.Run

/-!
# The areas behind the mapped files

Every process maps as many bytes as its own configuration asks for. The first one stores the number
of elements in the file, and later ones keep it. Sizes are computed in 64 bits without a check.
-/

namespace SQLumDash.Ipc.Mapping

open Runs

/-- The sizes of the structures, and of what is cleared. -/
structure Layout where
  sizeofMeta : Nat
  sizeofElem : Nat
  cleared : (allocSize nElem : Nat) → Nat
  meta_le : sizeofMeta ≤ 2 ^ 32
  elem_pos : 0 < sizeofElem
  elem_le : sizeofElem ≤ 2 ^ 32

/-- The row locks: `RowMetaData` and `RowElement`. -/
def rowLayout : Layout where
  sizeofMeta := 64
  sizeofElem := 40
  cleared allocSize _ := allocSize
  meta_le := by decide
  elem_pos := by decide
  elem_le := by decide

/-- `TableMetaData`, `TableElement` and `CachedRowid`. -/
def tableLayout : Layout where
  sizeofMeta := 72
  sizeofElem := 32 + 16
  cleared _ nElem := 72 + 32 * nElem + 16 * nElem
  meta_le := by decide
  elem_pos := by decide
  elem_le := by decide

namespace Layout

variable (l : Layout)

/-- The elements in some bytes, by an unsigned subtraction. -/
def nElem (nByte : Nat) : Nat := (nByte + (2 ^ 64 - l.sizeofMeta)) % 2 ^ 64 / l.sizeofElem

/-- The number of bytes that are mapped. -/
def nAlloc (nByte : Nat) : Nat := (l.sizeofMeta + l.sizeofElem * l.nElem nByte) % 2 ^ 64

/-- `rowClassInitArea` and `tableClassInitArea`: the number stored. There is none where more is
cleared than was mapped. -/
def xInitArea (allocSize : Nat) : Option Nat :=
  let nElem := l.nElem allocSize
  if l.cleared allocSize nElem ≤ (allocSize + 4095) / 4096 * 4096 then some nElem else none

end Layout

/-- Whether `rowlockOsMmapOpen` succeeds. A mapping is not empty, and a file not stretched to a
negative offset. -/
def rowlockOsMmapOpen (allocSize : Nat) (granted : Bool) : Bool :=
  granted && decide (0 < allocSize ∧ allocSize < 2 ^ 63)

/-- `rowlockIpcCreate`, with the number in the file before and after. -/
def rowlockIpcCreate (l : Layout) (allocSize : Nat) (granted : Bool) (nElement : Nat) :
    Option Nat :=
  if rowlockOsMmapOpen allocSize granted then
    if nElement > 0 then some nElement else l.xInitArea allocSize
  else none

/-- The number of elements in each file, zero in a new one. -/
structure Files where
  row : Nat
  table : Nat
  deriving DecidableEq, Repr

/-- What the system answers: names, files and mutexes. -/
structure Answers where
  names : Bool
  row : Bool
  table : Bool
  mutexes : Bool

/-- What a process has mapped. -/
structure Mapped where
  sizeRow : Nat
  sizeTable : Nat
  deriving DecidableEq, Repr

/-- `sqlite3rowlockIpcInit`. The first file stays when a later step fails. -/
def sqlite3rowlockIpcInit (files : Files) (nByteRow nByteTable : Nat) (answers : Answers) :
    Option Mapped × Files :=
  if answers.names then
    let nAllocRow := rowLayout.nAlloc nByteRow
    let nAllocTable := tableLayout.nAlloc nByteTable
    match rowlockIpcCreate rowLayout nAllocRow answers.row files.row with
    | none => (none, files)
    | some row =>
      match rowlockIpcCreate tableLayout nAllocTable answers.table files.table with
      | none => (none, ⟨row, files.table⟩)
      | some table =>
        (if answers.mutexes then some ⟨nAllocRow, nAllocTable⟩ else none, ⟨row, table⟩)
  else (none, files)

/-- A configured size. -/
abbrev ConfigSize := {nByte : Nat // nByte < 2 ^ 63}

/-- An unused file is removed. -/
inductive FileEvent where
  | init (nByteRow nByteTable : ConfigSize) (answers : Answers)
  | removeRow
  | removeTable

/-- The files after an event. -/
def step (files : Files) : FileEvent → Files
  | .init nByteRow nByteTable answers =>
    (sqlite3rowlockIpcInit files nByteRow.1 nByteTable.1 answers).2
  | .removeRow => { files with row := 0 }
  | .removeTable => { files with table := 0 }

/-- The array lies within the mapped bytes, and has two elements. -/
def Fits (l : Layout) (nElement size : Nat) : Prop :=
  2 ≤ nElement ∧ l.sizeofMeta + l.sizeofElem * nElement ≤ size

/-- After a success, both areas fit what was mapped. -/
def InitFits (files : Files) : FileEvent → Prop
  | .init nByteRow nByteTable answers =>
    ∀ mapped after, sqlite3rowlockIpcInit files nByteRow.1 nByteTable.1 answers =
        (some mapped, after) →
      Fits rowLayout after.row mapped.sizeRow ∧ Fits tableLayout after.table mapped.sizeTable
  | _ => True

/-- The configured size holds two elements, or those in the file. -/
def Suits (l : Layout) (nElement nByte : Nat) : Prop :=
  if nElement = 0 then l.sizeofMeta + l.sizeofElem * 2 ≤ nByte
  else 2 ≤ nElement ∧ l.sizeofMeta + l.sizeofElem * nElement ≤ nByte

/-- Where it succeeds, both sizes are large enough. -/
def InitSuits (files : Files) : FileEvent → Prop
  | .init nByteRow nByteTable answers =>
    (sqlite3rowlockIpcInit files nByteRow.1 nByteTable.1 answers).1.isSome →
      Suits rowLayout files.row nByteRow.1 ∧ Suits tableLayout files.table nByteTable.1
  | _ => True

section Sizes

variable {l : Layout} {nByte nElement nElement' : Nat} {granted : Bool}

/-- Below the metadata too little is mapped, or the size wraps. -/
theorem nAlloc_of_lt (small : nByte < l.sizeofMeta) (bound : l.nAlloc nByte < 2 ^ 63) :
    l.nAlloc nByte < l.sizeofMeta := by
  have metaBound := l.meta_le
  have elemBound := l.elem_le
  have wrapped : (nByte + (2 ^ 64 - l.sizeofMeta)) % 2 ^ 64 =
      nByte + (2 ^ 64 - l.sizeofMeta) := Nat.mod_eq_of_lt (by omega)
  have parts := Nat.div_add_mod (nByte + (2 ^ 64 - l.sizeofMeta)) l.sizeofElem
  have rest := Nat.mod_lt (nByte + (2 ^ 64 - l.sizeofMeta)) l.elem_pos
  unfold Layout.nAlloc Layout.nElem at bound ⊢
  rw [wrapped] at bound ⊢
  omega

section

variable (bound : nByte < 2 ^ 63) (large : l.sizeofMeta ≤ nByte)

include bound large

/-- The number without a wrap. -/
theorem nElem_eq : l.nElem nByte = (nByte - l.sizeofMeta) / l.sizeofElem := by
  have metaBound := l.meta_le
  have wrapped : (nByte + (2 ^ 64 - l.sizeofMeta)) % 2 ^ 64 = nByte - l.sizeofMeta := by omega
  rw [Layout.nElem, wrapped]

/-- The bytes without a wrap. -/
theorem nAlloc_eq :
    l.nAlloc nByte = l.sizeofMeta + l.sizeofElem * ((nByte - l.sizeofMeta) / l.sizeofElem) := by
  have used : l.sizeofElem * ((nByte - l.sizeofMeta) / l.sizeofElem) ≤ nByte - l.sizeofMeta :=
    Nat.mul_div_le _ _
  rw [Layout.nAlloc, nElem_eq bound large]
  exact Nat.mod_eq_of_lt (by omega)

/-- What the configured bytes hold is mapped. -/
theorem elements_le_nAlloc (count : Nat) :
    l.sizeofMeta + l.sizeofElem * count ≤ l.nAlloc nByte ↔
      l.sizeofMeta + l.sizeofElem * count ≤ nByte := by
  have division : count ≤ (nByte - l.sizeofMeta) / l.sizeofElem ↔
      l.sizeofElem * count ≤ nByte - l.sizeofMeta := by
    rw [Nat.le_div_iff_mul_le l.elem_pos, Nat.mul_comm]
  rw [nAlloc_eq bound large, Nat.add_le_add_iff_left, Nat.mul_le_mul_left_iff l.elem_pos, division]
  omega

/-- The mapped bytes hold the configured elements. -/
theorem nElem_nAlloc : l.nElem (l.nAlloc nByte) = (nByte - l.sizeofMeta) / l.sizeofElem := by
  have used : l.sizeofElem * ((nByte - l.sizeofMeta) / l.sizeofElem) ≤ nByte - l.sizeofMeta :=
    Nat.mul_div_le _ _
  have size := nAlloc_eq bound large
  rw [nElem_eq (by omega) (by omega), size, Nat.add_sub_cancel_left,
    Nat.mul_div_cancel_left _ l.elem_pos]

end

/-- An area fits where its size is large enough. -/
theorem create_fits_iff (bound : nByte < 2 ^ 63)
    (created : rowlockIpcCreate l (l.nAlloc nByte) granted nElement = some nElement') :
    Fits l nElement' (l.nAlloc nByte) ↔ Suits l nElement nByte := by
  unfold rowlockIpcCreate at created
  split at created
  case isFalse => cases created
  next opened =>
  have range : 0 < l.nAlloc nByte ∧ l.nAlloc nByte < 2 ^ 63 := by
    unfold rowlockOsMmapOpen at opened
    simp only [Bool.and_eq_true, decide_eq_true_eq] at opened
    exact opened.2
  by_cases large : l.sizeofMeta ≤ nByte
  · have inside := elements_le_nAlloc bound large
    unfold Fits Suits
    by_cases stored : nElement > 0
    · rw [if_pos stored] at created
      cases created
      have notZero : nElement ≠ 0 := by omega
      rw [if_neg notZero, inside]
    · rw [if_neg stored, Layout.xInitArea] at created
      have zero : nElement = 0 := by omega
      split at created
      case isFalse => cases created
      cases created
      have whole := nAlloc_eq bound large
      have two : l.sizeofMeta + l.sizeofElem * 2 ≤ l.nAlloc nByte ↔
          2 ≤ (nByte - l.sizeofMeta) / l.sizeofElem := by
        rw [whole, Nat.add_le_add_iff_left, Nat.mul_le_mul_left_iff l.elem_pos]
      rw [if_pos zero, ← inside, two, nElem_nAlloc bound large, whole]
      exact and_iff_left (Nat.le_refl _)
  · have below := nAlloc_of_lt (Nat.lt_of_not_le large) range.2
    constructor
    · rintro ⟨-, inside⟩
      omega
    · unfold Suits
      split
      · intro inside
        omega
      · rintro ⟨-, inside⟩
        omega

end Sizes

/-- What a successful initialisation did. -/
theorem init_some {files after : Files} {nByteRow nByteTable : Nat} {answers : Answers}
    {mapped : Mapped}
    (done : sqlite3rowlockIpcInit files nByteRow nByteTable answers = (some mapped, after)) :
    mapped = ⟨rowLayout.nAlloc nByteRow, tableLayout.nAlloc nByteTable⟩ ∧
      rowlockIpcCreate rowLayout (rowLayout.nAlloc nByteRow) answers.row files.row =
        some after.row ∧
      rowlockIpcCreate tableLayout (tableLayout.nAlloc nByteTable) answers.table files.table =
        some after.table := by
  unfold sqlite3rowlockIpcInit at done
  split at done
  case isFalse => cases done
  cases row : rowlockIpcCreate rowLayout (rowLayout.nAlloc nByteRow) answers.row files.row with
  | none =>
    simp only [row] at done
    cases done
  | some nRow =>
    cases table : rowlockIpcCreate tableLayout (tableLayout.nAlloc nByteTable) answers.table
        files.table with
    | none =>
      simp only [row, table] at done
      cases done
    | some nTable =>
      simp only [row, table, Prod.mk.injEq] at done
      obtain ⟨result, rfl⟩ := done
      split at result
      · exact ⟨(Option.some.inj result).symm, rfl, rfl⟩
      · cases result

/-- Both areas fit where both sizes are large enough. -/
theorem initFits_iff_initSuits (files : Files) (event : FileEvent) :
    InitFits files event ↔ InitSuits files event := by
  cases event with
  | removeRow | removeTable => exact Iff.rfl
  | init nByteRow nByteTable answers =>
    have agree (mapped : Mapped) (after : Files)
        (done : sqlite3rowlockIpcInit files nByteRow.1 nByteTable.1 answers =
          (some mapped, after)) :
        (Fits rowLayout after.row mapped.sizeRow ∧ Fits tableLayout after.table mapped.sizeTable) ↔
          Suits rowLayout files.row nByteRow.1 ∧ Suits tableLayout files.table nByteTable.1 := by
      obtain ⟨rfl, row, table⟩ := init_some done
      exact and_congr (create_fits_iff nByteRow.2 row) (create_fits_iff nByteTable.2 table)
    constructor
    · intro fits succeeded
      obtain ⟨mapped, result⟩ := Option.isSome_iff_exists.1 succeeded
      have done : sqlite3rowlockIpcInit files nByteRow.1 nByteTable.1 answers =
          (some mapped, (sqlite3rowlockIpcInit files nByteRow.1 nByteTable.1 answers).2) :=
        Prod.ext result rfl
      exact (agree mapped _ done).1 (fits mapped _ done)
    · intro suits mapped after done
      refine (agree mapped after done).2 (suits ?_)
      rw [done]
      rfl

/-- In a run, every successful initialisation leaves areas that fit what its process mapped, exactly
where every one of them finds its configured sizes large enough for the files as they are. -/
theorem mapped_areas_fit_iff (files : Files) (events : List FileEvent) :
    Guarded step InitFits files events ↔ Guarded step InitSuits files events :=
  guarded_congr initFits_iff_initSuits files events

/-- The answers where nothing fails. -/
def granted : Answers := ⟨true, true, true, true⟩

/-- A process with 1 MiB for each area opens the files, then one with 1024 bytes, which maps less
than the first one stored. One with 100 bytes finds room for no element. -/
theorem second_process_maps_less :
    let first : FileEvent := .init ⟨1048576, by decide⟩ ⟨1048576, by decide⟩ granted
    let second : FileEvent := .init ⟨1024, by decide⟩ ⟨1024, by decide⟩ granted
    sqlite3rowlockIpcInit (step ⟨0, 0⟩ first) 1024 1024 granted =
        (some ⟨1024, 984⟩, ⟨26212, 21843⟩) ∧
      ¬Fits rowLayout 26212 1024 ∧ ¬Fits tableLayout 21843 984 ∧
      ¬Guarded step InitFits ⟨0, 0⟩ [first, second] ∧
      sqlite3rowlockIpcInit ⟨0, 0⟩ 100 100 granted = (some ⟨64, 72⟩, ⟨0, 0⟩) ∧
      ¬Fits rowLayout 0 64 := by
  intro first second
  have opened : sqlite3rowlockIpcInit (step ⟨0, 0⟩ first) 1024 1024 granted =
      (some ⟨1024, 984⟩, ⟨26212, 21843⟩) := by decide +kernel
  have rowUnfit : ¬Fits rowLayout 26212 1024 := by
    unfold Fits
    decide
  refine ⟨opened, rowUnfit, ?_, ?_, by decide +kernel, ?_⟩
  · unfold Fits
    decide
  · rintro ⟨-, fits, -⟩
    exact rowUnfit (fits _ _ opened).1
  · unfold Fits
    decide

end SQLumDash.Ipc.Mapping
