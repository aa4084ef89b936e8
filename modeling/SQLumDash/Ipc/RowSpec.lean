import SQLumDash.Ipc.LockArea
import SQLumDash.Ipc.Row
import Mathlib.Data.Finmap

/-!
# The row-lock area is a finite map

A lawful area stores at most one entry per row. Locking adds one entry, unlocking removes one, and a
search decides who holds a row.
-/

namespace SQLumDash.Ipc

open Probing

/-- The key under which an element is stored. -/
def RowElement.key (elem : RowElement) : Int × Int := (elem.iTable, elem.rowid)

/-- The handle an element was stored under. -/
def RowElement.handle (elem : RowElement) : Handle := ⟨elem.pid, elem.owner⟩

/-- The fields of the holder. -/
theorem RowElement.heldBy_iff (elem : RowElement) (pHandle : Handle) :
    elem.heldBy pHandle ↔ elem.handle = pHandle := by
  cases pHandle
  simp only [heldBy, handle, Handle.mk.injEq]

/-- Row elements are copied whole. -/
theorem rowClass_lawful : rowClass.Lawful (id : RowElement → RowElement) where
  copy _ _ := rfl
  valid _ _ same := congrArg rowClass.xElemIsValid same
  hash _ _ same := congrArg rowClass.xElemHash same
  clear _ := rfl

namespace RowArea

variable (cfg : RowConfig)

/-- The entries an area stores. -/
def entries (area : RowArea) : Multiset RowElement :=
  stored rowClass id cfg.nElement area.pElement

/-- The invariant of a row-lock area: one entry per row. -/
abbrev Lawful (area : RowArea) : Prop :=
  LockArea.Lawful rowClass id RowElement.key (fun row => cfg.xCalcHash row.1 row.2) cfg.nElement area

/-- The handle that holds a row, as the search finds it. -/
def holder (area : RowArea) (iTable rowid : Int) : Option Handle :=
  match rowSearch cfg area iTable rowid with
  | .found idx => some (area.pElement idx).handle
  | _ => none

variable {cfg} {area : RowArea} {iTable rowid : Int} {elem : RowElement} {idx : Nat}

/-- Entries are in used slots. -/
theorem mem_entries :
    elem ∈ area.entries cfg ↔ ∃ idx < cfg.nElement, area.pElement idx = elem ∧ elem.iTable ≠ 0 := by
  unfold entries stored validSlots
  simp only [id_eq, Multiset.mem_map, Finset.mem_val, Finset.mem_filter, Finset.mem_range, rowClass,
    decide_eq_true_eq]
  constructor
  · rintro ⟨idx, ⟨bound, valid⟩, rfl⟩
    exact ⟨idx, bound, rfl, valid⟩
  · rintro ⟨idx, bound, rfl, valid⟩
    exact ⟨idx, ⟨bound, valid⟩, rfl⟩

/-- Unlocking a row without an entry changes nothing. -/
theorem unlock_absent (absent : area.holder cfg iTable rowid = none) :
    sqlite3rowlockIpcUnlockRecord cfg area iTable rowid = area := by
  unfold sqlite3rowlockIpcUnlockRecord
  cases outcome : rowSearch cfg area iTable rowid with
  | found idx =>
    unfold holder at absent
    rw [outcome] at absent
    cases absent
  | free idx | full => simp only [ite_self]

namespace Lawful

section

variable (lawful : area.Lawful cfg)

include lawful

/-- A search finds the slot that stores the row. -/
theorem rowSearch_found_iff (nonzero : iTable ≠ 0) : rowSearch cfg area iTable rowid = .found idx ↔
      idx < cfg.nElement ∧ (area.pElement idx).key = (iTable, rowid) := by
  have targets : ∀ j < cfg.nElement, rowClass.xElemIsValid (area.pElement j) = true →
      (rowClass.xElemIsTarget (area.pElement j) (rowlockTarget iTable rowid) = true ↔
        (area.pElement j).key = (iTable, rowid)) := by
    intro j _ _
    simp only [rowClass, rowlockTarget, RowElement.key, decide_eq_true_eq, Prod.mk.injEq]
  refine (lawful.search_found_iff (cfg.hash_lt iTable rowid) targets).trans ?_
  refine and_congr_right fun _ => and_iff_right_of_imp fun key => ?_
  have table : (area.pElement idx).iTable = iTable := congrArg Prod.fst key
  simpa [rowClass, table] using nonzero

/-- A row is held by the handle of its entry. -/
theorem holder_eq_some_iff (nonzero : iTable ≠ 0) {pHandle : Handle} :
    area.holder cfg iTable rowid = some pHandle ↔
      ∃ elem ∈ area.entries cfg, elem.key = (iTable, rowid) ∧ elem.handle = pHandle := by
  unfold holder
  constructor
  · intro held
    cases outcome : rowSearch cfg area iTable rowid with
    | found idx =>
      rw [outcome] at held
      obtain ⟨bound, key⟩ := (lawful.rowSearch_found_iff nonzero).1 outcome
      have table : (area.pElement idx).iTable = iTable := congrArg Prod.fst key
      exact ⟨area.pElement idx, mem_entries.2 ⟨idx, bound, rfl, table ▸ nonzero⟩, key,
        Option.some.inj held⟩
    | free idx | full =>
      rw [outcome] at held
      cases held
  · rintro ⟨elem, member, key, rfl⟩
    obtain ⟨idx, bound, rfl, -⟩ := mem_entries.1 member
    rw [(lawful.rowSearch_found_iff nonzero).2 ⟨bound, key⟩]

/-- A row without an entry is held by nobody. -/
theorem holder_eq_none_iff (nonzero : iTable ≠ 0) : area.holder cfg iTable rowid = none ↔
      ∀ elem ∈ area.entries cfg, elem.key ≠ (iTable, rowid) := by
  rw [Option.eq_none_iff_forall_ne_some]
  constructor
  · intro free elem member key
    exact free elem.handle ((lawful.holder_eq_some_iff nonzero).2 ⟨elem, member, key, rfl⟩)
  · intro absent pHandle held
    obtain ⟨elem, member, key, -⟩ := (lawful.holder_eq_some_iff nonzero).1 held
    exact absent elem member key

/-- An absent row is stored where the search ends. -/
theorem storeRow (nonzero : iTable ≠ 0) (pHandle : Handle)
    (free : rowSearch cfg area iTable rowid = .free idx) (space : area.count < cfg.nElement - 1) :
    let area' : RowArea := ⟨area.count + 1, rowlockIpcRowValueSet cfg area idx pHandle iTable rowid⟩
    area'.Lawful cfg ∧ area'.entries cfg =
      ⟨cfg.xCalcHash iTable rowid, iTable, rowid, pHandle.pid, pHandle.owner⟩ ::ₘ
        area.entries cfg := by
  have spec := rowlockIpcSearch_spec rowClass area.pElement (rowlockTarget iTable rowid)
    (cfg.hash_lt iTable rowid)
  change SearchSpec _ _ _ _ _ (rowSearch cfg area iTable rowid) at spec
  rw [free] at spec
  obtain ⟨bound, vacant, passed⟩ := spec
  have absent : ∀ elem ∈ area.entries cfg, elem.key ≠ (iTable, rowid) := by
    apply (lawful.holder_eq_none_iff nonzero).1
    unfold holder
    rw [free]
  refine lawful.store bound vacant ?_ (cfg.hash_lt iTable rowid)
    (fun j target near => (passed j target near).1) rfl absent space
  simpa [rowClass] using nonzero

/-- Unlocking the row stored in a slot removes that slot. -/
theorem unlock_eq (bound : idx < cfg.nElement)
    (valid : rowClass.xElemIsValid (area.pElement idx) = true) :
    sqlite3rowlockIpcUnlockRecord cfg area (area.pElement idx).iTable (area.pElement idx).rowid =
      removeSlot rowClass cfg.nElement area (home rowClass area.pElement idx) idx := by
  have nonzero : (area.pElement idx).iTable ≠ 0 := by simpa [rowClass] using valid
  have hashed : (area.pElement idx).hash =
      cfg.xCalcHash (area.pElement idx).iTable (area.pElement idx).rowid :=
    lawful.hashed idx bound valid
  have found := (lawful.rowSearch_found_iff nonzero).2
    ⟨bound, (rfl : (area.pElement idx).key = (_, (area.pElement idx).rowid))⟩
  have hole := hole_of_emptyLoop lawful.reach lawful.vacancy bound valid
  have first : rowClass.xElemIsValid (area.pElement (area.pElement idx).hash) = true :=
    hole.cluster _ hole.startBound (Nat.le_refl _)
  unfold sqlite3rowlockIpcUnlockRecord
  rw [← hashed]
  simp only [first, if_true, found]
  rfl

/-- An unlock removes the entry of its row. -/
theorem unlock (member : elem ∈ area.entries cfg) :
    (sqlite3rowlockIpcUnlockRecord cfg area elem.iTable elem.rowid).Lawful cfg ∧
      area.entries cfg = elem ::ₘ
        (sqlite3rowlockIpcUnlockRecord cfg area elem.iTable elem.rowid).entries cfg := by
  obtain ⟨idx, bound, rfl, nonzero⟩ := mem_entries.1 member
  have valid : rowClass.xElemIsValid (area.pElement idx) = true := by simpa [rowClass] using nonzero
  obtain ⟨kept, split, -⟩ := lawful.remove rowClass_lawful bound valid
  rw [lawful.unlock_eq bound valid]
  exact ⟨kept, split⟩

end

end Lawful

/-- The initialised area is lawful. -/
theorem init_lawful (cfg : RowConfig) : rowClassInitArea.Lawful cfg := by
  have size := cfg.two_le
  exact LockArea.Lawful.of_empty (fun _ => rfl) rfl (by omega)

end RowArea

end SQLumDash.Ipc
