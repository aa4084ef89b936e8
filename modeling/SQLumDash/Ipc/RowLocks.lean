import SQLumDash.Ipc.RowSpec

/-!
# Row locks as a whole

Releasing all locks of a handle removes exactly its entries. `RowLockTable` packs an area with its
invariant and states what every operation does to the holders of rows.
-/

namespace SQLumDash.Ipc

open Probing

/-- Whether a release takes the element along. -/
def RowElement.releasedBy (elem : RowElement) (pHandle : Handle) : Prop :=
  (pHandle.pid = 0 ∨ elem.pid = pHandle.pid) ∧ (pHandle.owner = 0 ∨ elem.owner = pHandle.owner)

instance (elem : RowElement) (pHandle : Handle) : Decidable (elem.releasedBy pHandle) :=
  inferInstanceAs (Decidable (_ ∧ _))

/-- A running connection releases only its own entries. -/
theorem RowElement.releasedBy_iff {elem : RowElement} {pHandle : Handle} (pid : pHandle.pid ≠ 0)
    (owner : pHandle.owner ≠ 0) : elem.releasedBy pHandle ↔ elem.handle = pHandle := by
  rw [← elem.heldBy_iff]
  simp only [releasedBy, pid, owner, false_or, heldBy]

namespace RowArea

variable {cfg : RowConfig} {area : RowArea} {pHandle : Handle} {idx : Nat}

/-- A slot of the handle is unlocked once. -/
theorem recordSlotLoop_releases (cfg : RowConfig) (pHandle : Handle) :
    LockArea.Releases rowClass id RowElement.key (fun row => cfg.xCalcHash row.1 row.2) cfg.nElement
      (fun elem => elem.releasedBy pHandle)
      (fun idx area => recordSlotLoop cfg pHandle idx cfg.nElement area) := by
  have stays : ∀ (fuel idx : Nat) (area : RowArea),
      ¬ area.Releasable rowClass id (fun elem => elem.releasedBy pHandle) idx →
      recordSlotLoop cfg pHandle idx fuel area = area := by
    intro fuel idx area none
    cases fuel with
    | zero => rfl
    | succ fuel => exact if_neg none
  refine ⟨stays cfg.nElement, ?_⟩
  intro idx area lawful bound here gone
  obtain ⟨size, sized⟩ : ∃ size, cfg.nElement = size + 1 :=
    ⟨cfg.nElement - 1, by have := cfg.two_le; omega⟩
  have step : recordSlotLoop cfg pHandle idx (size + 1) area = recordSlotLoop cfg pHandle idx size
      (sqlite3rowlockIpcUnlockRecord cfg area (area.pElement idx).iTable
        (area.pElement idx).rowid) := if_pos here
  rw [Lawful.unlock_eq lawful bound here.1] at step
  rw [stays size idx _ gone, ← sized] at step
  exact step

/-- A release keeps exactly the entries of others. -/
theorem Lawful.unlockProc (lawful : area.Lawful cfg) (pHandle : Handle) :
    (sqlite3rowlockIpcUnlockRecordProc cfg pHandle area).Lawful cfg ∧
      (sqlite3rowlockIpcUnlockRecordProc cfg pHandle area).entries cfg =
        (area.entries cfg).filter fun elem => ¬ elem.releasedBy pHandle :=
  lawful.unlockProcCore rowClass_lawful cfg.two_le (recordSlotLoop_releases cfg pHandle)

/-- A lock request, by who holds the row. -/
theorem Lawful.lock (lawful : area.Lawful cfg) (pHandle : Handle) {iTable : Int}
    (nonzero : iTable ≠ 0) (rowid : Int) :
    let result := sqlite3rowlockIpcLockRecord cfg pHandle area iTable rowid
    result.2.Lawful cfg ∧
      match area.holder cfg iTable rowid with
      | some holder => result = (if holder = pHandle then .done else .locked, area)
      | none =>
        if area.count ≥ cfg.nElement - 1 then result = (.nomem, area)
        else result.1 = .ok ∧ result.2.count = area.count + 1 ∧ result.2.entries cfg =
          ⟨cfg.xCalcHash iTable rowid, iTable, rowid, pHandle.pid, pHandle.owner⟩ ::ₘ
            area.entries cfg := by
  unfold sqlite3rowlockIpcLockRecord holder
  cases outcome : rowSearch cfg area iTable rowid with
  | found idx =>
    dsimp only
    by_cases mine : (area.pElement idx).heldBy pHandle
    · rw [if_pos mine, if_pos ((RowElement.heldBy_iff _ _).1 mine)]
      exact ⟨lawful, rfl⟩
    · rw [if_neg mine, if_neg fun same => mine ((RowElement.heldBy_iff _ _).2 same)]
      exact ⟨lawful, rfl⟩
  | full => exact absurd outcome (lawful.search_not_full (cfg.hash_lt iTable rowid))
  | free idx =>
    split_ifs with crowded
    · exact ⟨lawful, rfl⟩
    · obtain ⟨kept, grown⟩ := lawful.storeRow nonzero pHandle outcome (by omega)
      exact ⟨kept, rfl, rfl, grown⟩

end RowArea

/-- A row-lock area together with its invariant. -/
structure RowLockTable (cfg : RowConfig) where
  area : RowArea
  lawful : area.Lawful cfg

namespace RowLockTable

variable {cfg : RowConfig} (locks : RowLockTable cfg) (pHandle : Handle) (iTable : RootPage)
  (rowid : Int)

/-- The initialised area. -/
def init (cfg : RowConfig) : RowLockTable cfg := ⟨rowClassInitArea, RowArea.init_lawful cfg⟩

/-- The handle that holds a row. -/
def holder : Option Handle := locks.area.holder cfg iTable.1 rowid

/-- `sqlite3rowlockIpcLockRecord` on a lawful area. -/
def lockRecord : Rc × RowLockTable cfg :=
  let result := sqlite3rowlockIpcLockRecord cfg pHandle locks.area iTable.1 rowid
  (result.1, ⟨result.2, (locks.lawful.lock pHandle iTable.2 rowid).1⟩)

/-- `sqlite3rowlockIpcUnlockRecord` keeps the area lawful. -/
theorem unlock_lawful : (sqlite3rowlockIpcUnlockRecord cfg locks.area iTable.1 rowid).Lawful cfg := by
  cases held : locks.area.holder cfg iTable.1 rowid with
  | none =>
    rw [RowArea.unlock_absent held]
    exact locks.lawful
  | some holder =>
    obtain ⟨elem, member, key, -⟩ := (locks.lawful.holder_eq_some_iff iTable.2).1 held
    obtain ⟨table, row⟩ := Prod.mk.inj key
    rw [← table, ← row]
    exact (locks.lawful.unlock member).1

/-- `sqlite3rowlockIpcUnlockRecord` on a lawful area. -/
def unlockRecord : RowLockTable cfg := ⟨_, locks.unlock_lawful iTable rowid⟩

/-- `sqlite3rowlockIpcUnlockRecordProc` -/
def unlockRecordProc : RowLockTable cfg := ⟨_, (locks.lawful.unlockProc pHandle).1⟩

variable {locks pHandle iTable rowid} {other : RootPage} {row : Int}

/-- The entries of a row decide its holder. -/
theorem holder_congr {left right : RowLockTable cfg} {iTable' : RootPage} {rowid' : Int}
    (same : ∀ pHandle : Handle,
      (∃ elem ∈ left.area.entries cfg, elem.key = (iTable.1, rowid) ∧ elem.handle = pHandle) ↔
      ∃ elem ∈ right.area.entries cfg, elem.key = (iTable'.1, rowid') ∧ elem.handle = pHandle) :
    left.holder iTable rowid = right.holder iTable' rowid' := by
  apply Option.ext
  intro pHandle
  exact (left.lawful.holder_eq_some_iff iTable.2).trans
    ((same pHandle).trans (right.lawful.holder_eq_some_iff iTable'.2).symm)

/-- The answer, by the holder and the free slots. -/
theorem lockRecord_rc : (locks.lockRecord pHandle iTable rowid).1 =
    match locks.holder iTable rowid with
    | some holder => if holder = pHandle then .done else .locked
    | none => if locks.area.count ≥ cfg.nElement - 1 then .nomem else .ok := by
  have spec := (locks.lawful.lock pHandle iTable.2 rowid).2
  unfold lockRecord holder
  cases held : locks.area.holder cfg iTable.1 rowid with
  | some holder =>
    rw [held] at spec
    dsimp only at spec ⊢
    rw [spec]
  | none =>
    rw [held] at spec
    dsimp only at spec ⊢
    split_ifs at spec ⊢ with crowded
    · rw [spec]
    · exact spec.1

/-- Only `SQLITE_OK` changes anything. -/
theorem lockRecord_refused (refused : (locks.lockRecord pHandle iTable rowid).1 ≠ .ok) :
    (locks.lockRecord pHandle iTable rowid).2 = locks := by
  have spec := (locks.lawful.lock pHandle iTable.2 rowid).2
  unfold lockRecord at refused ⊢
  cases held : locks.area.holder cfg iTable.1 rowid with
  | some holder =>
    rw [held] at spec
    simp only [spec]
  | none =>
    rw [held] at spec
    split_ifs at spec with crowded
    · simp only [spec]
    · exact absurd spec.1 refused

/-- The caller becomes the holder of that row only. -/
theorem lockRecord_holder (granted : (locks.lockRecord pHandle iTable rowid).1 = .ok) :
    (locks.lockRecord pHandle iTable rowid).2.holder other row =
      if other = iTable ∧ row = rowid then some pHandle else locks.holder other row := by
  have free : locks.area.holder cfg iTable.1 rowid = none := by
    rw [lockRecord_rc] at granted
    unfold holder at granted
    cases held : locks.area.holder cfg iTable.1 rowid with
    | none => rfl
    | some holder =>
      rw [held] at granted
      dsimp only at granted
      split_ifs at granted
  have spec := (locks.lawful.lock pHandle iTable.2 rowid).2
  rw [free] at spec
  split_ifs at spec with crowded
  · have refused : (locks.lockRecord pHandle iTable rowid).1 = .nomem := congrArg Prod.fst spec
    rw [refused] at granted
    cases granted
  · obtain ⟨-, -, grown⟩ := spec
    have absent := (locks.lawful.holder_eq_none_iff iTable.2).1 free
    split_ifs with same
    · obtain ⟨rfl, rfl⟩ := same
      apply ((locks.lockRecord pHandle other row).2.lawful.holder_eq_some_iff other.2).2
      refine ⟨⟨cfg.xCalcHash other.1 row, other.1, row, pHandle.pid, pHandle.owner⟩, ?_, rfl, rfl⟩
      change _ ∈ (sqlite3rowlockIpcLockRecord cfg pHandle locks.area other.1 row).2.entries cfg
      rw [grown]
      exact Multiset.mem_cons_self _ _
    · apply holder_congr
      intro handle
      change (∃ elem ∈ (sqlite3rowlockIpcLockRecord cfg pHandle locks.area iTable.1
        rowid).2.entries cfg, _) ↔ _
      rw [grown]
      constructor
      · rintro ⟨elem, member, key, held⟩
        rcases Multiset.mem_cons.1 member with rfl | member
        · obtain ⟨table, row'⟩ := Prod.mk.inj key
          exact absurd ⟨Subtype.ext table.symm, row'.symm⟩ same
        · exact ⟨elem, member, key, held⟩
      · rintro ⟨elem, member, key, held⟩
        exact ⟨elem, Multiset.mem_cons_of_mem member, key, held⟩

/-- Unlocking a row frees that row only, whoever held it. -/
theorem unlockRecord_holder : (locks.unlockRecord iTable rowid).holder other row =
    if other = iTable ∧ row = rowid then none else locks.holder other row := by
  cases held : locks.area.holder cfg iTable.1 rowid with
  | none =>
    have same : locks.unlockRecord iTable rowid = locks := by
      unfold unlockRecord
      simp only [RowArea.unlock_absent held]
    rw [same]
    split_ifs with key
    · rw [key.1, key.2]
      exact held
    · rfl
  | some handle =>
    obtain ⟨elem, member, key, -⟩ := (locks.lawful.holder_eq_some_iff iTable.2).1 held
    obtain ⟨table, row'⟩ := Prod.mk.inj key
    have split := (locks.lawful.unlock member).2
    rw [table, row'] at split
    have once : ((locks.area.entries cfg).map RowElement.key).Nodup := locks.lawful.unique
    rw [split, Multiset.map_cons, Multiset.nodup_cons] at once
    split_ifs with same
    · obtain ⟨rfl, rfl⟩ := same
      apply ((locks.unlockRecord other row).lawful.holder_eq_none_iff other.2).2
      intro elem' member' key'
      apply once.1
      rw [key, ← key']
      exact Multiset.mem_map_of_mem _ member'
    · apply holder_congr
      intro pHandle
      constructor
      · rintro ⟨elem', member', key', held'⟩
        refine ⟨elem', ?_, key', held'⟩
        rw [split]
        exact Multiset.mem_cons_of_mem member'
      · rintro ⟨elem', member', key', held'⟩
        rw [split] at member'
        rcases Multiset.mem_cons.1 member' with rfl | member'
        · rw [key] at key'
          obtain ⟨table', row''⟩ := Prod.mk.inj key'
          exact absurd ⟨Subtype.ext table'.symm, row''.symm⟩ same
        · exact ⟨elem', member', key', held'⟩

/-- A release frees exactly the connection's rows. -/
theorem unlockRecordProc_holder (pid : pHandle.pid ≠ 0) (owner : pHandle.owner ≠ 0) :
    (locks.unlockRecordProc pHandle).holder other row =
      if locks.holder other row = some pHandle then none else locks.holder other row := by
  have kept := (locks.lawful.unlockProc pHandle).2
  split_ifs with mine
  · apply ((locks.unlockRecordProc pHandle).lawful.holder_eq_none_iff other.2).2
    intro elem member key
    have member' : elem ∈ (sqlite3rowlockIpcUnlockRecordProc cfg pHandle locks.area).entries cfg :=
      member
    rw [kept, Multiset.mem_filter, RowElement.releasedBy_iff pid owner] at member'
    have held := (locks.lawful.holder_eq_some_iff other.2).2 ⟨elem, member'.1, key, rfl⟩
    have same : locks.area.holder cfg other.1 row = some pHandle := mine
    rw [same] at held
    exact member'.2 (Option.some.inj held).symm
  · apply holder_congr
    intro handle
    change (∃ elem ∈ (sqlite3rowlockIpcUnlockRecordProc cfg pHandle locks.area).entries cfg, _) ↔ _
    rw [kept]
    constructor
    · rintro ⟨elem, member, key, held⟩
      exact ⟨elem, (Multiset.mem_filter.1 member).1, key, held⟩
    · rintro ⟨elem, member, key, held⟩
      refine ⟨elem, Multiset.mem_filter.2 ⟨member, ?_⟩, key, held⟩
      rw [RowElement.releasedBy_iff pid owner]
      intro same
      exact mine ((locks.lawful.holder_eq_some_iff other.2).2 ⟨elem, member, key, same⟩)

/-- Nobody holds a row of the initialised area. -/
theorem init_holder : (init cfg).holder other row = none := by
  apply ((init cfg).lawful.holder_eq_none_iff other.2).2
  intro elem member
  obtain ⟨idx, -, rfl, nonzero⟩ := RowArea.mem_entries.1 member
  exact absurd rfl nonzero

end RowLockTable

end SQLumDash.Ipc
