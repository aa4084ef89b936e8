import SQLumDash.Ipc.CachedRowid
import SQLumDash.Ipc.TableCompat
import SQLumDash.Ipc.TableLevel
import Mathlib.Data.Finset.Max

/-!
# Which cached rowids a reset keeps

`Reset` asks for the lock of each cached table under no owner, so that every entry matches. The
answer is the level of the first entry. One whose level a savepoint rollback set back hides the
locks of the entries behind it.
-/

namespace SQLumDash.Ipc

open Probing

namespace TableArea

/-- Some connection has a lock on the table. -/
def InUse (cfg : TableConfig) (area : TableArea) (iTable : RootPage) : Prop :=
  ∃ conn : Conn, area.level cfg conn iTable ≠ .notLocked

/-- The entry of the table that is nearest to its hash. -/
def First (cfg : TableConfig) (area : TableArea) (iTable : RootPage) (idx : Nat) : Prop :=
  idx < cfg.nElement ∧ (area.pElement idx).iTable = iTable.1 ∧
    ∀ j < cfg.nElement, (area.pElement j).iTable = iTable.1 →
      dist cfg.nElement (cfg.xCalcHash iTable.1) idx ≤ dist cfg.nElement (cfg.xCalcHash iTable.1) j

variable {cfg : TableConfig} {area : TableArea} {iTable : RootPage} {idx : Nat}

/-- A table with an entry has a first one. -/
theorem exists_first (bound : idx < cfg.nElement) (table : (area.pElement idx).iTable = iTable.1) :
    ∃ first, area.First cfg iTable first := by
  let slots := (Finset.range cfg.nElement).filter fun j => (area.pElement j).iTable = iTable.1
  have some' : slots.Nonempty := ⟨idx, Finset.mem_filter.2 ⟨Finset.mem_range.2 bound, table⟩⟩
  obtain ⟨first, member, least⟩ := Finset.exists_min_image slots
    (dist cfg.nElement (cfg.xCalcHash iTable.1)) some'
  obtain ⟨inside, here⟩ := Finset.mem_filter.1 member
  refine ⟨first, Finset.mem_range.1 inside, here, fun j boundJ tableJ => ?_⟩
  exact least j (Finset.mem_filter.2 ⟨Finset.mem_range.2 boundJ, tableJ⟩)

/-- A table has one first entry. -/
theorem First.unique {other : Nat} (first : area.First cfg iTable idx)
    (first' : area.First cfg iTable other) : idx = other := by
  have equal := Nat.le_antisymm (first.2.2 other first'.1 first'.2.1)
    (first'.2.2 idx first.1 first.2.1)
  exact dist_inj (cfg.hash_lt iTable.1) first.1 first'.1 equal

/-- Without an owner, every entry of the table matches. -/
theorem isTarget_wildcard (elem : TableElement) (iTable : RootPage) :
    tableClass.xElemIsTarget elem (tablelockTarget ⟨0, 0⟩ iTable.1) = true ↔
      elem.iTable = iTable.1 := by
  simp [tableClass, tablelockTarget, TableElement.zero]

/-- Without an owner, the answer is the first level. -/
theorem Lawful.query_first (lawful : area.Lawful cfg) (first : area.First cfg iTable idx)
    (pid : Nat) :
    sqlite3rowlockIpcLockTableQuery cfg ⟨pid, 0⟩ area iTable.1 = (area.pElement idx).eLock := by
  have hashBound := cfg.hash_lt iTable.1
  have spec := rowlockIpcSearch_spec tableClass area.pElement
    (tablelockTarget ⟨0, 0⟩ iTable.1) hashBound
  have hit := (isTarget_wildcard (area.pElement idx) iTable).2 first.2.1
  unfold sqlite3rowlockIpcLockTableQuery
  by_cases valid : tableClass.xElemIsValid (area.pElement (cfg.xCalcHash iTable.1)) = true
  case neg =>
    -- The entries of a table are reached from its hash, so the slot there is not empty.
    have vacant := Bool.eq_false_iff.2 valid
    have near := lawful.before_vacant first.1 first.2.1 hashBound vacant
    rw [(dist_eq_zero hashBound hashBound).2 rfl] at near
    exact absurd near (Nat.not_lt_zero _)
  simp only [valid, if_true]
  cases outcome : rowlockIpcSearch tableClass cfg.nElement area.pElement
      (tablelockTarget ⟨0, 0⟩ iTable.1) (cfg.xCalcHash iTable.1) with
  | found slot =>
    rw [outcome] at spec
    have earlier := rowlockIpcSearch_first hashBound outcome
    have here : area.First cfg iTable slot := by
      refine ⟨spec.1, (isTarget_wildcard _ iTable).1 spec.2.2, fun j bound table => ?_⟩
      by_contra nearer
      have missed := earlier j bound (by omega)
      rw [(isTarget_wildcard _ iTable).2 table] at missed
      cases missed
    rw [first.unique here]
  | free stop =>
    rw [outcome] at spec
    obtain ⟨stopBound, vacant, passed⟩ := spec
    have near := lawful.before_vacant first.1 first.2.1 stopBound vacant
    rw [(passed idx first.1 near).2] at hit
    cases hit
  | full =>
    rw [outcome] at spec
    rw [(spec idx first.1).2] at hit
    cases hit

/-- A table in use has a first entry. -/
theorem InUse.exists_first (inUse : area.InUse cfg iTable) :
    ∃ first, area.First cfg iTable first := by
  obtain ⟨conn, held⟩ := inUse
  obtain ⟨idx, has⟩ := hasAt_of_level held
  exact TableArea.exists_first has.1 has.iTable_eq

end TableArea

namespace Cache

open Packed

/-- `sqlite3rowlockIpcCachedRowidReset` of a connection. -/
def cachedRowidReset (cfg : TableConfig) (pHandle : Handle) (area : TableArea) (c : CacheArea) :
    Option CacheArea :=
  sqlite3rowlockIpcCachedRowidReset (sqlite3rowlockIpcLockTableQuery cfg ⟨pHandle.pid, 0⟩ area) c

/-- Entries that hold a map. -/
abbrev CachedRowids (nElement : Nat) := {c : CacheArea // ∃ map, Represents nElement c map}

namespace CachedRowids

variable {nElement : Nat} (cache : CachedRowids nElement) (iTable : Table)

/-- A search of the entries ends. -/
theorem get_isSome : (sqlite3rowlockIpcCachedRowidGet cache.1 iTable.1).isSome = true := by
  obtain ⟨map, represents⟩ := cache.2
  rw [represents.get_eq]
  rfl

/-- `sqlite3rowlockIpcCachedRowidGet` -/
def get : Int := (sqlite3rowlockIpcCachedRowidGet cache.1 iTable.1).get (cache.get_isSome iTable)

/-- The rowid of the map, or zero. -/
theorem get_of_represents {map : RowidMap} (represents : Represents nElement cache.1 map) :
    cache.get iTable = (map iTable.1).getD 0 :=
  Option.get_of_eq_some _ (represents.get_eq iTable.1)

/-- A rowid is set, or there is no room for it. -/
theorem set_some (rowid : Int) : ∃ result,
    sqlite3rowlockIpcCachedRowidSet cache.1 iTable.1 rowid = some result ∧
      (result.2 = cache.1 ∨ ∃ map, Represents nElement result.2 map ∧ map iTable.1 = some rowid) := by
  obtain ⟨map, represents⟩ := cache.2
  obtain ⟨rc, c', result, ⟨-, same, -⟩ | ⟨-, -, -, next⟩⟩ := represents.set_cases iTable rowid
  · exact ⟨(rc, c'), result, Or.inl same⟩
  · exact ⟨(rc, c'), result, Or.inr ⟨_, next, Function.update_self ..⟩⟩

/-- `sqlite3rowlockIpcCachedRowidSet` -/
def set (rowid : Int) : CachedRowids nElement :=
  ⟨((sqlite3rowlockIpcCachedRowidSet cache.1 iTable.1 rowid).get (by
      obtain ⟨result, eq, -⟩ := cache.set_some iTable rowid
      rw [eq]
      rfl)).2, by
    obtain ⟨result, eq, same | ⟨map, represents, -⟩⟩ := cache.set_some iTable rowid
    · rw [Option.get_of_eq_some _ eq, same]
      exact cache.2
    · rw [Option.get_of_eq_some _ eq]
      exact ⟨map, represents⟩⟩

/-- What is cached is what was set, if there was room. -/
theorem get_set (rowid : Int) :
    (cache.set iTable rowid).get iTable = rowid ∨ cache.set iTable rowid = cache := by
  obtain ⟨result, eq, outcome⟩ := cache.set_some iTable rowid
  have content : (cache.set iTable rowid).1 = result.2 :=
    congrArg Prod.snd (Option.get_of_eq_some _ eq)
  rw [← content] at outcome
  rcases outcome with same | ⟨map, represents, known⟩
  · exact Or.inr (Subtype.ext same)
  · rw [get_of_represents _ _ represents, known]
    exact Or.inl rfl

variable (cfg : TableConfig) (pHandle : Handle) (area : TableArea)

/-- A reset ends, and leaves the rowids of some tables. -/
theorem reset_some (cache : CachedRowids cfg.nElement) : ∃ c',
    cachedRowidReset cfg pHandle area cache.1 = some c' ∧
      ∃ map, Represents cfg.nElement c' map ∧
        ∀ iTable : Table, map iTable.1 = none ∨ (map iTable.1).getD 0 = cache.get iTable := by
  obtain ⟨map, represents⟩ := cache.2
  obtain ⟨c', result, kept⟩ := represents.reset_some
    (sqlite3rowlockIpcLockTableQuery cfg ⟨pHandle.pid, 0⟩ area)
  refine ⟨c', result, _, kept, fun iTable => ?_⟩
  rw [cache.get_of_represents iTable represents]
  split_ifs
  · exact Or.inl rfl
  · exact Or.inr rfl

/-- `sqlite3rowlockIpcCachedRowidReset` of a connection. -/
def reset (cache : CachedRowids cfg.nElement) : CachedRowids cfg.nElement :=
  ⟨(cachedRowidReset cfg pHandle area cache.1).get (by
      obtain ⟨c', eq, -⟩ := reset_some cfg pHandle area cache
      rw [eq]
      rfl), by
    obtain ⟨c', eq, map, represents, -⟩ := reset_some cfg pHandle area cache
    rw [Option.get_of_eq_some _ eq]
    exact ⟨map, represents⟩⟩

/-- A reset removes what is cached for a table, or leaves it. -/
theorem get_reset (cache : CachedRowids cfg.nElement) (iTable : Table) :
    (reset cfg pHandle area cache).get iTable = 0 ∨
      (reset cfg pHandle area cache).get iTable = cache.get iTable := by
  obtain ⟨c', eq, map, represents, kept⟩ := reset_some cfg pHandle area cache
  have content : (reset cfg pHandle area cache).1 = c' := Option.get_of_eq_some _ eq
  rw [← content] at represents
  rw [get_of_represents _ _ represents]
  refine (kept iTable).imp_left fun absent => ?_
  rw [absent]
  rfl

end CachedRowids

/-- The table has a cached rowid. -/
def Cached (c : CacheArea) (iTable : RootPage) : Prop :=
  ∃ rowid, Holds c.pCachedRowid c.nCache ⟨iTable.1, rowid⟩

/-- Tables in use keep their cached rowids. -/
def KeepsInUse (cfg : TableConfig) (area : TableArea) (c c' : CacheArea) : Prop :=
  ∀ (iTable : RootPage) (rowid : Int), area.InUse cfg iTable →
    Holds c.pCachedRowid c.nCache ⟨iTable.1, rowid⟩ →
    Holds c'.pCachedRowid c'.nCache ⟨iTable.1, rowid⟩

/-- The first entry of every cached table in use has a lock. -/
def FirstLocked (cfg : TableConfig) (area : TableArea) (c : CacheArea) : Prop :=
  ∀ (iTable : RootPage) (idx : Nat), Cached c iTable → area.InUse cfg iTable →
    area.First cfg iTable idx → (area.pElement idx).eLock ≠ .notLocked

variable {cfg : TableConfig} {area : TableArea} {c : CacheArea} {map : RowidMap}

/-- A reset keeps what is in use exactly where no first entry without a lock hides another. -/
theorem Represents.reset_keeps (represents : Represents cfg.nElement c map)
    (lawful : area.Lawful cfg) (pHandle : Handle) :
    ∃ c', cachedRowidReset cfg pHandle area c = some c' ∧
      (KeepsInUse cfg area c c' ↔ FirstLocked cfg area c) := by
  obtain ⟨c', result, kept⟩ := represents.reset_some
    (sqlite3rowlockIpcLockTableQuery cfg ⟨pHandle.pid, 0⟩ area)
  refine ⟨c', result, ?_⟩
  constructor
  · intro keeps iTable idx cached inUse first free
    obtain ⟨rowid, held⟩ := cached
    have still := (kept.map iTable.1 rowid).2 (keeps iTable rowid inUse held)
    rw [lawful.query_first first, free, if_pos rfl] at still
    cases still
  · intro locked iTable rowid inUse held
    obtain ⟨idx, first⟩ := inUse.exists_first
    have level := locked iTable idx ⟨rowid, held⟩ inUse first
    apply (kept.map iTable.1 rowid).1
    rw [lawful.query_first first, if_neg level]
    exact (represents.map iTable.1 rowid).2 held

/-- A call on the table locks and the cached rowids. -/
inductive SharedCall where
  | table (call : TableCall)
  | set (iTable : Table) (rowid : Int)
  | dropTable (iTable : Table)
  | reset (pHandle : Handle)

/-- The area after a call. -/
def step (cfg : TableConfig) (s : TableArea × Option (CacheArea × RowidMap)) :
    SharedCall → TableArea × Option (CacheArea × RowidMap)
  | .table call => (call.perform cfg s.1, s.2)
  | .set iTable rowid => (s.1, perform s.2 (.set iTable rowid))
  | .dropTable iTable => (s.1, perform s.2 (.dropTable iTable))
  | .reset pHandle =>
    (s.1, perform s.2 (.reset (sqlite3rowlockIpcLockTableQuery cfg ⟨pHandle.pid, 0⟩ s.1)))

/-- The area that `tableClassInitArea` leaves. -/
def initShared (cfg : TableConfig) : TableArea × Option (CacheArea × RowidMap) :=
  (Ipc.tableClassInitArea, some (tableClassInitArea cfg.nElement, fun _ => none))

/-- What calls reach is lawful and holds the map. -/
theorem reached_sound (cfg : TableConfig) (calls : List SharedCall) :
    (Runs.run (step cfg) (initShared cfg) calls).1.Lawful cfg ∧
      Sound cfg.nElement (Runs.run (step cfg) (initShared cfg) calls).2 := by
  have start : (initShared cfg).1.Lawful cfg ∧ Sound cfg.nElement (initShared cfg).2 :=
    ⟨TableArea.init_lawful cfg, _, _, rfl, represents_init cfg.nElement⟩
  have keeps (s : TableArea × Option (CacheArea × RowidMap)) (call : SharedCall)
      (good : s.1.Lawful cfg ∧ Sound cfg.nElement s.2) :
      (step cfg s call).1.Lawful cfg ∧ Sound cfg.nElement (step cfg s call).2 := by
    obtain ⟨lawful, sound⟩ := good
    cases call with
    | table call => exact ⟨lawful.perform call, sound⟩
    | set iTable rowid | dropTable iTable | reset pHandle => exact ⟨lawful, sound.perform _⟩
  exact Runs.run_invariant keeps calls start

/-- In every state that calls reach, a reset keeps the cached rowids of the tables in use exactly
where the first entry of each of them has a lock. -/
theorem cachedRowidReset_keeps_iff (cfg : TableConfig) (calls : List SharedCall)
    (pHandle : Handle) :
    let s := Runs.run (step cfg) (initShared cfg) calls
    ∃ c map c', s.2 = some (c, map) ∧ cachedRowidReset cfg pHandle s.1 c = some c' ∧
      (KeepsInUse cfg s.1 c c' ↔ FirstLocked cfg s.1 c) := by
  intro s
  obtain ⟨lawful, c, map, reached, represents⟩ := reached_sound cfg calls
  obtain ⟨c', result, keeps⟩ := represents.reset_keeps lawful pHandle
  exact ⟨c, map, c', reached, result, keeps⟩

/-- The first connection locks a table and rolls back to a savepoint, the second one locks it and
caches a rowid. A reset removes it. -/
theorem cachedRowidReset_drops_inUse :
    let cfg := tableConfig 4 (by decide)
    let s := Runs.run (step cfg) (initShared cfg)
      [.table (.lock connA tableTwo .write .normal), .table (.lock connA tableTwo .notLocked .force),
        .table (.lock connB tableTwo .write .normal), .set ⟨2, by decide⟩ 7]
    s.1.level cfg connB tableTwo = .write ∧
    ∃ c map c', s.2 = some (c, map) ∧ Holds c.pCachedRowid c.nCache ⟨2, 7⟩ ∧
      cachedRowidReset cfg connB.1 s.1 c = some c' ∧
      (∀ rowid, ¬Holds c'.pCachedRowid c'.nCache ⟨2, rowid⟩) ∧ ¬KeepsInUse cfg s.1 c c' := by
  intro cfg s
  have level : s.1.level cfg connB tableTwo = .write := by decide +kernel
  have answer : sqlite3rowlockIpcLockTableQuery cfg ⟨connB.1.pid, 0⟩ s.1 2 = .notLocked := by
    decide +kernel
  have stored : s.2.map (fun held => held.2 2) = some (some 7) := by decide +kernel
  obtain ⟨-, c, map, reached, represents⟩ := reached_sound cfg
    [.table (.lock connA tableTwo .write .normal), .table (.lock connA tableTwo .notLocked .force),
      .table (.lock connB tableTwo .write .normal), .set ⟨2, by decide⟩ 7]
  obtain ⟨c', result, kept⟩ := represents.reset_some
    (sqlite3rowlockIpcLockTableQuery cfg ⟨connB.1.pid, 0⟩ s.1)
  have known : map 2 = some 7 := by
    rw [reached] at stored
    exact Option.some.inj stored
  have held := (represents.map 2 7).1 known
  have gone (rowid : Int) : ¬Holds c'.pCachedRowid c'.nCache ⟨2, rowid⟩ := by
    intro still
    have found := (kept.map 2 rowid).2 still
    rw [if_pos answer] at found
    cases found
  refine ⟨level, c, map, c', reached, held, result, gone, fun keeps => ?_⟩
  have inUse : s.1.InUse cfg tableTwo := ⟨connB, by rw [level]; decide⟩
  exact gone 7 (keeps tableTwo 7 inUse held)

end Cache

end SQLumDash.Ipc
