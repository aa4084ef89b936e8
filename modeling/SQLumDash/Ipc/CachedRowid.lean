import SQLumDash.Ipc.Table
import SQLumDash.Lib.Packed
import SQLumDash.Lib.Run
import Mathlib.Data.Finset.Range

/-!
# The cached rowids

Behind the table locks, the area maps tables to rowids. The used entries come first; one is removed
by moving the last one into its place, also while `Reset` walks down the array. Assertions and loops
that do not end have no result; neither happens, as there are fewer tables than values of a 32 bit
counter.
-/

namespace SQLumDash.Ipc.Cache

open Packed Function

/-- `CachedRowid`. An entry with table zero is unused. -/
structure CachedRowid where
  iTable : Int
  rowid : Int
  deriving DecidableEq, Repr

/-- An entry as `memset` leaves it. -/
def CachedRowid.zero : CachedRowid := ⟨0, 0⟩

/-- The cache of `TableMetaData`, and the entries. -/
structure CacheArea where
  nElement : Nat
  nCache : Nat
  pCachedRowid : Nat → CachedRowid

/-- The cache that `tableClassInitArea` leaves. -/
def tableClassInitArea (nElement : Nat) : CacheArea := ⟨nElement, 0, fun _ => .zero⟩

/-- The number of values of a `u32`. -/
def u32Size : Nat := 2 ^ 32

/-- The number of values of a `u64`. -/
def u64Size : Nat := 2 ^ 64

/-- The entry is the one of the table. -/
def isTable (pCachedRowid : Nat → CachedRowid) (iTable : Int) (i : Nat) : Bool :=
  decide ((pCachedRowid i).iTable = iTable)

/-- The entry is the one of the table, or unused. -/
def isTableOrUnused (pCachedRowid : Nat → CachedRowid) (iTable : Int) (i : Nat) : Bool :=
  decide ((pCachedRowid i).iTable = iTable ∨ (pCachedRowid i).iTable = 0)

/-- `sqlite3rowlockIpcCachedRowidSet` -/
def sqlite3rowlockIpcCachedRowidSet (c : CacheArea) (iTable rowid : Int) :
    Option (Rc × CacheArea) :=
  if iTable = 0 then some (.ok, c)
  else
    match scan u32Size c.nElement (isTableOrUnused c.pCachedRowid iTable) u32Size 0 with
    | none => none
    | some i =>
      if i < c.nElement then
        let added := (c.pCachedRowid i).iTable = 0
        let nCache := if added then c.nCache + 1 else c.nCache
        -- The two assertions.
        if (added → (i + 1) % u32Size = nCache) ∧ i < nCache then
          some (.ok, ⟨c.nElement, nCache, update c.pCachedRowid i ⟨iTable, rowid⟩⟩)
        else none
      else
        some (if i = c.nElement then .nomem else .ok, c)

/-- `sqlite3rowlockIpcCachedRowidGet` -/
def sqlite3rowlockIpcCachedRowidGet (c : CacheArea) (iTable : Int) : Option Int :=
  match scan u32Size c.nCache (isTable c.pCachedRowid iTable) u32Size 0 with
  | none => none
  | some i => some (if i < c.nCache then (c.pCachedRowid i).rowid else 0)

/-- The last entry moves into the place of `iDel`. -/
def moveLast (pCachedRowid : Nat → CachedRowid) (iDel iMove : Nat) : Nat → CachedRowid :=
  let cleared := update pCachedRowid iDel .zero
  update (update cleared iDel (cleared iMove)) iMove .zero

/-- `sqlite3rowlockIpcCachedRowidDropTable` -/
def sqlite3rowlockIpcCachedRowidDropTable (c : CacheArea) (iTable : Int) : Option CacheArea :=
  if c.nCache = 0 then some c
  else
    match scan u64Size c.nCache (isTableOrUnused c.pCachedRowid iTable) u64Size 0 with
    | none => none
    | some i =>
      if i < c.nCache ∧ (c.pCachedRowid i).iTable = iTable then
        some ⟨c.nElement, c.nCache - 1, moveLast c.pCachedRowid i (c.nCache - 1)⟩
      else some c

/-- The body of the loop of `Reset`, with the assertion of the query. -/
def resetEntry (query : Int → TableLock) (i : Nat) (pCachedRowid : Nat → CachedRowid)
    (iTail : Nat) : Option ((Nat → CachedRowid) × Nat) :=
  if (pCachedRowid i).iTable = 0 then none
  else if query (pCachedRowid i).iTable = .notLocked then
    some (update (update pCachedRowid i (pCachedRowid iTail)) iTail .zero,
      (iTail + (u64Size - 1)) % u64Size)
  else some (pCachedRowid, iTail)

/-- The loop of `Reset`, from an index down to zero. -/
def resetLoop (query : Int → TableLock) :
    Nat → (Nat → CachedRowid) → Nat → Option ((Nat → CachedRowid) × Nat)
  | 0, pCachedRowid, iTail => resetEntry query 0 pCachedRowid iTail
  | i + 1, pCachedRowid, iTail =>
    match resetEntry query (i + 1) pCachedRowid iTail with
    | none => none
    | some (pCachedRowid, iTail) => resetLoop query i pCachedRowid iTail

/-- `sqlite3rowlockIpcCachedRowidReset` under the answers of the query. -/
def sqlite3rowlockIpcCachedRowidReset (query : Int → TableLock) (c : CacheArea) :
    Option CacheArea :=
  if c.nCache = 0 then some c
  else
    match resetLoop query (c.nCache - 1) c.pCachedRowid (c.nCache - 1) with
    | none => none
    | some (pCachedRowid, iTail) => some ⟨c.nElement, (iTail + 1) % u64Size, pCachedRowid⟩

/-- Tables are 32 bit integers, and zero is none. -/
abbrev Table := {iTable : Int // iTable ≠ 0 ∧ -2 ^ 31 ≤ iTable ∧ iTable < 2 ^ 31}

/-- The rowids of the tables that have one. -/
abbrev RowidMap := Int → Option Int

/-- The entries hold a map from tables to rowids. -/
structure Represents (nElement : Nat) (c : CacheArea) (map : RowidMap) : Prop where
  size : c.nElement = nElement
  fits : c.nCache ≤ nElement
  used : ∀ i < c.nCache, (c.pCachedRowid i).iTable ≠ 0 ∧
    -2 ^ 31 ≤ (c.pCachedRowid i).iTable ∧ (c.pCachedRowid i).iTable < 2 ^ 31
  distinct : Distinct CachedRowid.iTable c.pCachedRowid c.nCache
  unused : ∀ i, c.nCache ≤ i → i < nElement → c.pCachedRowid i = .zero
  map : ∀ iTable rowid, map iTable = some rowid ↔
    Holds c.pCachedRowid c.nCache ⟨iTable, rowid⟩

variable {nElement : Nat} {c : CacheArea} {map : RowidMap}

/-- An empty cache holds the empty map. -/
theorem represents_init (nElement : Nat) :
    Represents nElement (tableClassInitArea nElement) fun _ => none where
  size := rfl
  fits := Nat.zero_le _
  used _ less := absurd less (Nat.not_lt_zero _)
  distinct _ _ less := absurd less (Nat.not_lt_zero _)
  unused _ _ _ := rfl
  map iTable rowid := by
    constructor
    · intro none
      cases none
    · rintro ⟨i, less, -⟩
      exact absurd less (Nat.not_lt_zero _)

/-- The tables that a cache can hold. -/
def tableValues : Finset Int :=
  ((Finset.range (2 ^ 32)).image fun n : Nat => (n : Int) - 2 ^ 31).erase 0

/-- The numbers of tables. -/
theorem mem_tableValues {iTable : Int} :
    iTable ∈ tableValues ↔ iTable ≠ 0 ∧ -2 ^ 31 ≤ iTable ∧ iTable < 2 ^ 31 := by
  rw [tableValues, Finset.mem_erase, Finset.mem_image]
  refine and_congr_right fun _ => ⟨?_, fun range => ?_⟩
  · rintro ⟨n, less, rfl⟩
    have bound := Finset.mem_range.mp less
    omega
  · exact ⟨(iTable + 2 ^ 31).toNat, Finset.mem_range.mpr (by omega), by omega⟩

/-- How many there are. -/
theorem card_tableValues : tableValues.card = u32Size - 1 := by
  have zero : (0 : Int) ∈ (Finset.range (2 ^ 32)).image fun n : Nat => (n : Int) - 2 ^ 31 :=
    Finset.mem_image.mpr ⟨2 ^ 31, Finset.mem_range.mpr (by decide), by decide⟩
  have injective : Function.Injective fun n : Nat => (n : Int) - 2 ^ 31 := by
    intro a b same
    simp only at same
    omega
  rw [tableValues, Finset.card_erase_of_mem zero, Finset.card_image_of_injective _ injective,
    Finset.card_range]
  rfl

namespace Represents

variable (represents : Represents nElement c map)

include represents

/-- The count is a value of its counter. -/
theorem nCache_lt : c.nCache < u32Size := by
  have bound := represents.distinct.count_le tableValues fun j less =>
    mem_tableValues.2 (represents.used j less)
  rw [card_tableValues] at bound
  have positive : 0 < u32Size := by decide
  omega

/-- With a table that has no entry, one more value is left. -/
theorem succ_nCache_lt {iTable : Table} (absent : map iTable.1 = none) :
    c.nCache + 1 < u32Size := by
  have others (j : Nat) (less : j < c.nCache) :
      (c.pCachedRowid j).iTable ∈ tableValues.erase iTable.1 := by
    refine Finset.mem_erase.2 ⟨?_, mem_tableValues.2 (represents.used j less)⟩
    intro same
    have held := (represents.map iTable.1 (c.pCachedRowid j).rowid).2 ⟨j, less, by rw [← same]⟩
    rw [absent] at held
    cases held
  have bound := represents.distinct.count_le _ others
  rw [Finset.card_erase_of_mem (mem_tableValues.2 iTable.2), card_tableValues] at bound
  have size : 2 ≤ u32Size := by decide
  omega

/-- A table has no entry, or one the map knows. -/
theorem locate (iTable : Int) :
    (map iTable = none ∧ ∀ j < c.nCache, (c.pCachedRowid j).iTable ≠ iTable) ∨
      ∃ k < c.nCache, (c.pCachedRowid k).iTable = iTable ∧
        map iTable = some (c.pCachedRowid k).rowid := by
  cases found : map iTable with
  | none =>
    refine .inl ⟨rfl, fun j less same => ?_⟩
    have held := (represents.map iTable (c.pCachedRowid j).rowid).2 ⟨j, less, by rw [← same]⟩
    rw [found] at held
    cases held
  | some rowid =>
    obtain ⟨k, less, entry⟩ := (represents.map iTable rowid).1 found
    exact .inr ⟨k, less, by rw [entry], by rw [entry]⟩

variable {modulus bound : Nat} {stop : Nat → Bool} {iTable : Int}

/-- A scan ends at the entry of its table. -/
theorem scan_present {k : Nat} (wide : u32Size ≤ modulus) (le : c.nCache ≤ bound)
    (passes : ∀ j < c.nCache, (c.pCachedRowid j).iTable ≠ iTable → stop j = false)
    (less : k < c.nCache) (here : (c.pCachedRowid k).iTable = iTable) (stops : stop k = true) :
    scan modulus bound stop modulus 0 = some k := by
  have small := represents.nCache_lt
  apply scan_eq (show k < modulus by omega) (.inr stops) (Nat.zero_le k) (by omega)
  intro j _ before
  have other : (c.pCachedRowid j).iTable ≠ iTable := by
    rw [← here]
    intro same
    have := represents.distinct j k (by omega) less same
    omega
  exact ⟨by omega, passes j (by omega) other⟩

/-- Without an entry it ends behind the used ones. -/
theorem scan_absent (wide : u32Size ≤ modulus) (le : c.nCache ≤ bound)
    (passes : ∀ j < c.nCache, stop j = false) (ends : bound ≤ c.nCache ∨ stop c.nCache = true) :
    scan modulus bound stop modulus 0 = some c.nCache := by
  have small := represents.nCache_lt
  apply scan_eq (show c.nCache < modulus by omega) ends (Nat.zero_le _) (by omega)
  exact fun j _ before => ⟨by omega, passes j before⟩

/-- Other entries are passed. -/
theorem isTableOrUnused_eq_false {j : Nat} (used : j < c.nCache)
    (other : (c.pCachedRowid j).iTable ≠ iTable) :
    isTableOrUnused c.pCachedRowid iTable j = false := by
  have something := (represents.used j used).1
  simp [isTableOrUnused, other, something]

/-- The rowid that was set, or zero. -/
theorem get_eq (iTable : Int) :
    sqlite3rowlockIpcCachedRowidGet c iTable = some ((map iTable).getD 0) := by
  unfold sqlite3rowlockIpcCachedRowidGet
  rcases represents.locate iTable with ⟨absent, others⟩ | ⟨k, less, here, found⟩
  · have passes (j : Nat) (used : j < c.nCache) : isTable c.pCachedRowid iTable j = false :=
      decide_eq_false (others j used)
    rw [represents.scan_absent (Nat.le_refl _) (Nat.le_refl _) passes (.inl (Nat.le_refl _)), absent]
    simp
  · have passes (j : Nat) (_ : j < c.nCache) (other : (c.pCachedRowid j).iTable ≠ iTable) :
        isTable c.pCachedRowid iTable j = false := decide_eq_false other
    have stops : isTable c.pCachedRowid iTable k = true := decide_eq_true here
    rw [represents.scan_present (Nat.le_refl _) (Nat.le_refl _) passes less here stops, found]
    simp [less]

/-- The rowid of a table that has an entry. -/
theorem replace {k : Nat} (rowid : Int) (less : k < c.nCache)
    (here : (c.pCachedRowid k).iTable = iTable) :
    Represents nElement
      ⟨c.nElement, c.nCache, update c.pCachedRowid k ⟨iTable, rowid⟩⟩
      (update map iTable (some rowid)) where
  size := represents.size
  fits := represents.fits
  used i used := by
    by_cases same : i = k
    · have range := represents.used k less
      rw [here] at range
      simpa only [same, update_self] using range
    · simpa only [update_of_ne same] using represents.used i used
  distinct := represents.distinct.update here.symm
  unused i from' inside := by
    show update c.pCachedRowid k _ i = _
    have unused : c.nCache ≤ i := from'
    rw [update_of_ne (by omega)]
    exact represents.unused i from' inside
  map other value := by
    rw [holds_update represents.distinct here.symm less, update_apply]
    by_cases same : other = iTable
    · simp [same, eq_comm]
    · simp [same, represents.map other value]

/-- The rowid of a table that has no entry. -/
theorem insert {iTable : Table} (rowid : Int) (room : c.nCache < nElement)
    (absent : ∀ j < c.nCache, (c.pCachedRowid j).iTable ≠ iTable.1) :
    Represents nElement
      ⟨c.nElement, c.nCache + 1, update c.pCachedRowid c.nCache ⟨iTable.1, rowid⟩⟩
      (update map iTable.1 (some rowid)) where
  size := represents.size
  fits := room
  used i used := by
    by_cases last : i = c.nCache
    · simpa only [last, update_self] using iTable.2
    · have before : i < c.nCache := by
        have bound : i < c.nCache + 1 := used
        omega
      simpa only [update_of_ne last] using represents.used i before
  distinct := represents.distinct.append absent
  unused i from' inside := by
    show update c.pCachedRowid c.nCache _ i = _
    have unused : c.nCache + 1 ≤ i := from'
    rw [update_of_ne (by omega)]
    exact represents.unused i (by omega) inside
  map other value := by
    rw [holds_append, update_apply]
    by_cases same : other = iTable.1
    · have fresh : ¬Holds c.pCachedRowid c.nCache ⟨iTable.1, value⟩ := by
        rintro ⟨j, less, entry⟩
        exact absent j less (by rw [entry])
      simp [same, eq_comm, fresh]
    · simp [same, represents.map other value]

/-- `sqlite3rowlockIpcCachedRowidSet` fails where there is no room. -/
theorem set_cases (iTable : Table) (rowid : Int) :
    ∃ rc c', sqlite3rowlockIpcCachedRowidSet c iTable.1 rowid = some (rc, c') ∧
      (rc = .nomem ∧ c' = c ∧ map iTable.1 = none ∧ c.nCache = nElement ∨
        rc = .ok ∧ ¬(map iTable.1 = none ∧ c.nCache = nElement) ∧
          c'.nCache = (if map iTable.1 = none then c.nCache + 1 else c.nCache) ∧
          Represents nElement c' (update map iTable.1 (some rowid))) := by
  have fits : c.nCache ≤ c.nElement := by
    rw [represents.size]
    exact represents.fits
  have passes (j : Nat) (used : j < c.nCache) (other : (c.pCachedRowid j).iTable ≠ iTable.1) :=
    represents.isTableOrUnused_eq_false used other
  unfold sqlite3rowlockIpcCachedRowidSet
  rw [if_neg iTable.2.1]
  rcases represents.locate iTable.1 with ⟨absent, others⟩ | ⟨k, less, here, found⟩
  · by_cases room : c.nCache < nElement
    · have free := represents.unused c.nCache (Nat.le_refl _) room
      have stops : (c.pCachedRowid c.nCache).iTable = 0 := by rw [free]; rfl
      have narrow := represents.succ_nCache_lt absent
      rw [represents.scan_absent (Nat.le_refl _) fits (fun j used => passes j used (others j used))
        (.inr (by simp [isTableOrUnused, stops]))]
      refine ⟨.ok, _, ?_, .inr ⟨rfl, ?_, (if_pos absent).symm, represents.insert rowid room others⟩⟩
      · have inside : c.nCache < c.nElement := by rwa [represents.size]
        have counted : (c.nCache + 1) % u32Size = c.nCache + 1 := Nat.mod_eq_of_lt narrow
        simp [inside, stops, counted]
      · rintro ⟨-, full⟩
        omega
    · have full : c.nCache = nElement := Nat.le_antisymm represents.fits (Nat.le_of_not_lt room)
      have bound : c.nElement = c.nCache := by rw [represents.size, full]
      rw [represents.scan_absent (Nat.le_refl _) fits (fun j used => passes j used (others j used))
        (.inl (Nat.le_of_eq bound))]
      refine ⟨.nomem, c, ?_, .inl ⟨rfl, rfl, absent, full⟩⟩
      simp [bound]
  · rw [represents.scan_present (Nat.le_refl _) fits passes less here
      (by simp [isTableOrUnused, here])]
    have present : map iTable.1 ≠ none := by
      rw [found]
      exact Option.some_ne_none _
    have replaced := represents.replace rowid less here
    refine ⟨.ok, ⟨c.nElement, c.nCache, update c.pCachedRowid k ⟨iTable.1, rowid⟩⟩, ?_,
      .inr ⟨rfl, fun full => present full.1, (if_neg present).symm, replaced⟩⟩
    have inside : k < c.nElement := by omega
    simp [inside, here, iTable.2.1, less]

/-- The last entry takes the place of one that goes. -/
theorem remove {k : Nat} (less : k < c.nCache) :
    Represents nElement
      ⟨c.nElement, c.nCache - 1, removeAt .zero c.pCachedRowid c.nCache k⟩
      (update map (c.pCachedRowid k).iTable none) where
  size := represents.size
  fits := Nat.le_trans (Nat.sub_le _ _) represents.fits
  used i used := by
    have bound : i < c.nCache - 1 := used
    simp only [removeAt_of_lt bound]
    split
    · exact represents.used _ (by omega)
    · exact represents.used _ (by omega)
  distinct := represents.distinct.removeAt less
  unused i from' inside := by
    show removeAt _ _ _ _ i = _
    have unused : c.nCache - 1 ≤ i := from'
    rcases Nat.lt_or_eq_of_le unused with behind | rfl
    · rw [removeAt_of_le (by omega) less]
      exact represents.unused i (by omega) inside
    · exact removeAt_last
  map other value := by
    rw [holds_removeAt represents.distinct less, update_apply]
    by_cases same : other = (c.pCachedRowid k).iTable
    · simp [same]
    · simp [same, represents.map other value]

omit represents in
/-- The move is that of a packed array. -/
theorem moveLast_eq (pCachedRowid : Nat → CachedRowid) (nCache iDel : Nat) :
    moveLast pCachedRowid iDel (nCache - 1) = removeAt .zero pCachedRowid nCache iDel := by
  funext j
  simp only [moveLast, removeAt, update_apply]
  by_cases last : j = nCache - 1
  · rw [if_pos last, if_pos last]
  · rw [if_neg last, if_neg last]
    by_cases here : j = iDel
    · have elsewhere : nCache - 1 ≠ iDel := by omega
      rw [if_pos here, if_pos here, if_neg elsewhere]
    · rw [if_neg here, if_neg here, if_neg here]

omit represents in
/-- A map does not change where it has nothing to lose. -/
theorem update_none (absent : map iTable = none) : update map iTable none = map := by
  rw [← absent]
  exact update_eq_self ..

/-- `sqlite3rowlockIpcCachedRowidDropTable` removes its table. -/
theorem dropTable_some (iTable : Int) :
    ∃ c', sqlite3rowlockIpcCachedRowidDropTable c iTable = some c' ∧
      Represents nElement c' (update map iTable none) := by
  have wide : u32Size ≤ u64Size := by decide
  unfold sqlite3rowlockIpcCachedRowidDropTable
  rcases represents.locate iTable with ⟨absent, others⟩ | ⟨k, less, here, found⟩
  · refine ⟨c, ?_, by rwa [update_none absent]⟩
    split
    · rfl
    · rw [represents.scan_absent wide (Nat.le_refl _)
        (fun j used => represents.isTableOrUnused_eq_false used (others j used))
        (.inl (Nat.le_refl _))]
      simp
  · have some' : c.nCache ≠ 0 := by omega
    rw [if_neg some', represents.scan_present wide (Nat.le_refl _)
      (fun j used other => represents.isTableOrUnused_eq_false used other) less here
      (by simp [isTableOrUnused, here])]
    refine ⟨_, if_pos ⟨less, here⟩, ?_⟩
    rw [moveLast_eq, ← here]
    exact represents.remove less

end Represents

section Reset

variable {query : Int → TableLock} {kept : RowidMap} {i iTail : Nat}

/-- The entries from an index on are asked about, and what is gone had no lock. -/
structure Walked (query : Int → TableLock) (nElement : Nat) (map : RowidMap) (start : Nat)
    (c : CacheArea) (kept : RowidMap) : Prop where
  represents : Represents nElement c kept
  inside : start ≤ c.nCache
  subset : ∀ iTable rowid, kept iTable = some rowid → map iTable = some rowid
  locked : ∀ iTable, query iTable ≠ .notLocked → kept iTable = map iTable
  asked : ∀ j, start ≤ j → j < c.nCache → query (c.pCachedRowid j).iTable ≠ .notLocked

section

variable (walked : Walked query nElement map (i + 1) c kept) (value : iTail < u64Size)
  (tail : (iTail + 1) % u64Size = c.nCache)

include walked value tail

/-- One entry is asked about. What takes the place of a removed one was asked before. -/
theorem Walked.entry : ∃ pCachedRowid iTail' kept', resetEntry query i c.pCachedRowid iTail =
        some (pCachedRowid, iTail') ∧ iTail' < u64Size ∧
      Walked query nElement map i ⟨c.nElement, (iTail' + 1) % u64Size, pCachedRowid⟩ kept' := by
  obtain ⟨represents, inside, subset, locked, asked⟩ := walked
  have less : i < c.nCache := inside
  have last : iTail = c.nCache - 1 := by
    unfold u64Size at value tail
    omega
  unfold resetEntry
  rw [if_neg (represents.used i less).1]
  by_cases free : query (c.pCachedRowid i).iTable = .notLocked
  · rw [if_pos free]
    have count : ((iTail + (u64Size - 1)) % u64Size + 1) % u64Size = c.nCache - 1 := by
      unfold u64Size at value tail ⊢
      omega
    have removed := represents.remove less
    refine ⟨_, _, update kept (c.pCachedRowid i).iTable none, rfl,
      Nat.mod_lt _ (by decide), ?_⟩
    rw [count, last]
    refine ⟨removed, ?_, ?_, ?_, ?_⟩
    · show i ≤ c.nCache - 1
      omega
    · intro iTable rowid found
      rw [update_apply] at found
      split at found
      · cases found
      · exact subset iTable rowid found
    · intro iTable used
      have other : iTable ≠ (c.pCachedRowid i).iTable := by
        rintro rfl
        exact used free
      rw [update_of_ne other]
      exact locked iTable used
    · intro j from' used
      have bound : j < c.nCache - 1 := used
      show query (removeAt .zero c.pCachedRowid c.nCache i j).iTable ≠ .notLocked
      rw [removeAt_of_lt bound]
      split
      · exact asked (c.nCache - 1) (by omega) (by omega)
      · exact asked j (by omega) (by omega)
  · rw [if_neg free]
    refine ⟨_, _, kept, rfl, value, ?_⟩
    rw [tail]
    refine ⟨represents, Nat.le_of_lt less, subset, locked, ?_⟩
    intro j from' used
    rcases Nat.lt_or_eq_of_le from' with later | rfl
    · exact asked j later used
    · exact free

/-- The rest of the walk. -/
theorem Walked.loop : ∃ pCachedRowid iTail' kept', resetLoop query i c.pCachedRowid iTail =
        some (pCachedRowid, iTail') ∧
      Walked query nElement map 0 ⟨c.nElement, (iTail' + 1) % u64Size, pCachedRowid⟩ kept' := by
  induction i generalizing c kept iTail with
  | zero =>
    obtain ⟨pCachedRowid, iTail', kept', result, -, final⟩ := walked.entry value tail
    exact ⟨pCachedRowid, iTail', kept', result, final⟩
  | succ i ih =>
    obtain ⟨pCachedRowid, iTail', kept', result, value', next⟩ := walked.entry value tail
    simp only [resetLoop, result]
    exact ih next value' rfl

end

/-- After the walk the tables without a lock are gone. -/
theorem Walked.final (walked : Walked query nElement map 0 c kept) :
    kept = fun iTable => if query iTable = .notLocked then none else map iTable := by
  funext iTable
  by_cases free : query iTable = .notLocked
  · rw [if_pos free]
    rcases walked.represents.locate iTable with ⟨absent, -⟩ | ⟨k, less, here, -⟩
    · exact absent
    · rw [← here] at free
      exact absurd free (walked.asked k (Nat.zero_le k) less)
  · rw [if_neg free]
    exact walked.locked iTable free

/-- `Reset` removes the tables without a lock. -/
theorem Represents.reset_some (represents : Represents nElement c map) (query : Int → TableLock) :
    ∃ c', sqlite3rowlockIpcCachedRowidReset query c = some c' ∧
      Represents nElement c' fun iTable =>
        if query iTable = .notLocked then none else map iTable := by
  have walked : Walked query nElement map c.nCache c map :=
    ⟨represents, Nat.le_refl _, fun _ _ found => found, fun _ _ => rfl, fun j from' less => by omega⟩
  unfold sqlite3rowlockIpcCachedRowidReset
  by_cases empty : c.nCache = 0
  · rw [if_pos empty]
    rw [empty] at walked
    exact ⟨c, rfl, walked.final ▸ represents⟩
  · rw [if_neg empty]
    have small := represents.nCache_lt
    have wide : u32Size ≤ u64Size := by decide
    have first : c.nCache - 1 + 1 = c.nCache := by omega
    have tail : (c.nCache - 1 + 1) % u64Size = c.nCache := by
      rw [first]
      exact Nat.mod_eq_of_lt (by omega)
    rw [← first] at walked
    obtain ⟨pCachedRowid, iTail, kept, result, final⟩ := walked.loop (by omega) tail
    rw [result]
    exact ⟨_, rfl, final.final ▸ final.represents⟩

end Reset

section Runs

/-- A call on the cache, with the answers of the query. -/
inductive CacheCall where
  | set (iTable : Table) (rowid : Int)
  | get (iTable : Table)
  | dropTable (iTable : Table)
  | reset (query : Int → TableLock)

/-- A call on the entries and on the map. Nothing follows one without a result. -/
def perform : Option (CacheArea × RowidMap) → CacheCall → Option (CacheArea × RowidMap)
  | none, _ => none
  | some (c, map), .set iTable rowid =>
    (sqlite3rowlockIpcCachedRowidSet c iTable.1 rowid).map fun result =>
      (result.2, if result.1 = .ok then update map iTable.1 (some rowid) else map)
  | some (c, map), .get iTable =>
    (sqlite3rowlockIpcCachedRowidGet c iTable.1).map fun _ => (c, map)
  | some (c, map), .dropTable iTable =>
    (sqlite3rowlockIpcCachedRowidDropTable c iTable.1).map fun c =>
      (c, update map iTable.1 none)
  | some (c, map), .reset query =>
    (sqlite3rowlockIpcCachedRowidReset query c).map fun c =>
      (c, fun iTable => if query iTable = .notLocked then none else map iTable)

/-- The calls had results, and the entries hold the map. -/
def Sound (nElement : Nat) (s : Option (CacheArea × RowidMap)) : Prop :=
  ∃ c map, s = some (c, map) ∧ Represents nElement c map

/-- Every call has a result. -/
theorem Sound.perform {s : Option (CacheArea × RowidMap)} (sound : Sound nElement s)
    (call : CacheCall) : Sound nElement (perform s call) := by
  obtain ⟨c, map, rfl, represents⟩ := sound
  cases call with
  | set iTable rowid =>
    obtain ⟨rc, c', result, failed | done⟩ := represents.set_cases iTable rowid
    · obtain ⟨rfl, rfl, -⟩ := failed
      exact ⟨c', map, by simp [Cache.perform, result], represents⟩
    · obtain ⟨rfl, -, -, next⟩ := done
      exact ⟨c', _, by simp only [Cache.perform, result, Option.map_some, if_true], next⟩
  | get iTable =>
    exact ⟨c, map, by simp [Cache.perform, represents.get_eq], represents⟩
  | dropTable iTable =>
    obtain ⟨c', result, next⟩ := represents.dropTable_some iTable.1
    exact ⟨c', _, by simp only [Cache.perform, result, Option.map_some], next⟩
  | reset query =>
    obtain ⟨c', result, next⟩ := represents.reset_some query
    exact ⟨c', _, by simp only [Cache.perform, result, Option.map_some], next⟩

/-- The cache is a finite map: after any calls, every call has a result and is the one on the map.
-/
theorem cachedRowid_finite_map (nElement : Nat) (calls : List CacheCall) :
    ∃ c map, Runs.run perform (some (tableClassInitArea nElement, fun _ => none)) calls =
        some (c, map) ∧
      Represents nElement c map ∧
      (∀ iTable : Table,
        sqlite3rowlockIpcCachedRowidGet c iTable.1 = some ((map iTable.1).getD 0)) ∧
      (∀ (iTable : Table) (rowid : Int), ∃ rc c',
        sqlite3rowlockIpcCachedRowidSet c iTable.1 rowid = some (rc, c') ∧
        (rc = .nomem ↔ map iTable.1 = none ∧ c.nCache = nElement) ∧
        (rc = .nomem → c' = c) ∧
        (rc ≠ .nomem → rc = .ok ∧
          Represents nElement c' (update map iTable.1 (some rowid)))) ∧
      (∀ iTable : Table, ∃ c', sqlite3rowlockIpcCachedRowidDropTable c iTable.1 = some c' ∧
        Represents nElement c' (update map iTable.1 none)) ∧
      ∀ query, ∃ c', sqlite3rowlockIpcCachedRowidReset query c = some c' ∧
        Represents nElement c' fun iTable =>
          if query iTable = .notLocked then none else map iTable := by
  have start : Sound nElement (some (tableClassInitArea nElement, fun _ => none)) :=
    ⟨_, _, rfl, represents_init nElement⟩
  have keeps (s : Option (CacheArea × RowidMap)) (call : CacheCall) (sound : Sound nElement s) :
      Sound nElement (perform s call) := sound.perform call
  obtain ⟨c, map, reached, represents⟩ := Runs.run_invariant keeps calls start
  refine ⟨c, map, reached, represents, fun iTable => represents.get_eq iTable.1, ?_,
    fun iTable => represents.dropTable_some iTable.1, fun query => represents.reset_some query⟩
  intro iTable rowid
  obtain ⟨rc, c', result, failed | done⟩ := represents.set_cases iTable rowid
  · obtain ⟨rfl, rfl, full⟩ := failed
    exact ⟨.nomem, c', result, ⟨fun _ => full, fun _ => rfl⟩, fun _ => rfl,
      fun notFailed => absurd rfl notFailed⟩
  · obtain ⟨rfl, notFull, -, next⟩ := done
    refine ⟨.ok, c', result, ⟨fun failed => ?_, fun full => absurd full notFull⟩,
      fun failed => ?_, fun _ => ⟨rfl, next⟩⟩
    · cases failed
    · cases failed

end Runs

end SQLumDash.Ipc.Cache
