import SQLumDash.Ipc.TableQuery

/-!
# What a connection is told about its table locks

The query reports the nearest entry with the owner of the caller, whatever the process. A lock
request compares the number of entries with the size of the area before it looks whether it needs a
new one, so that a full area also refuses to raise a lock.
-/

namespace SQLumDash.Ipc

open Probing

namespace TableArea

variable {cfg : TableConfig} {area : TableArea} {conn : Conn} {iTable : RootPage}
  {eLock : TableLock} {mode : LockMode} {idx : Nat}

section

variable (cfg : TableConfig) (area : TableArea) (conn : Conn) (iTable : RootPage) (idx : Nat)

/-- An entry for the table under the caller's owner, in whatever process. -/
def SameOwnerAt : Prop :=
  idx < cfg.nElement ∧ (area.pElement idx).iTable = iTable.1 ∧
    (area.pElement idx).owner = conn.1.owner

/-- The one of these that is nearest to the hash. -/
def Nearest : Prop :=
  area.SameOwnerAt cfg conn iTable idx ∧ ∀ j, area.SameOwnerAt cfg conn iTable j →
    dist cfg.nElement (cfg.xCalcHash iTable.1) idx ≤ dist cfg.nElement (cfg.xCalcHash iTable.1) j

end

/-- The caller's own entries are those of its process. -/
theorem SameOwnerAt.hasAt_iff (same : area.SameOwnerAt cfg conn iTable idx) :
    area.HasAt cfg conn iTable idx ↔ (area.pElement idx).pid = conn.1.pid := by
  rw [TableArea.hasAt_iff]
  exact ⟨fun has => has.2.2.1, fun pid => ⟨same.1, same.2.1, pid, same.2.2⟩⟩

/-- A query hits the entries under the caller's owner. -/
theorem Lawful.queryTarget_iff (lawful : area.Lawful cfg) (conn : Conn) (iTable : RootPage)
    (bound : idx < cfg.nElement) :
    (tableClass.xElemIsValid (area.pElement idx) = true ∧ tableClass.xElemIsTarget
      (area.pElement idx) (tablelockTarget ⟨0, conn.1.owner⟩ iTable.1) = true) ↔
      area.SameOwnerAt cfg conn iTable idx := by
  constructor
  · rintro ⟨valid, hit⟩
    obtain ⟨other, same, has⟩ := (lawful.isTarget_iff bound valid).1 hit
    refine ⟨bound, has.iTable_eq, ?_⟩
    rw [has.heldBy.2]
    exact same.1.resolve_left conn.2.2
  · rintro ⟨-, table, owner⟩
    have used : (area.pElement idx).iTable ≠ 0 := table ▸ iTable.2
    have valid := tableClass_valid_iff.2 used
    refine ⟨valid, (lawful.isTarget_iff bound valid).2 ?_⟩
    exact ⟨⟨⟨_, _⟩, lawful.named idx bound used⟩, ⟨Or.inr owner, Or.inl rfl⟩, bound,
      Prod.ext table rfl⟩

/-- A query reports the nearest of these entries. -/
theorem Lawful.querySearch_found_iff (lawful : area.Lawful cfg) :
    area.querySearch cfg conn iTable = .found idx ↔ area.Nearest cfg conn iTable idx := by
  have hashBound := cfg.hash_lt iTable.1
  have sound : ∀ {slot}, area.querySearch cfg conn iTable = .found slot →
      area.Nearest cfg conn iTable slot := by
    intro slot found
    have spec := rowlockIpcSearch_spec tableClass area.pElement
      (tablelockTarget ⟨0, conn.1.owner⟩ iTable.1) hashBound
    have first := rowlockIpcSearch_first hashBound found
    change SearchSpec _ _ _ _ _ (area.querySearch cfg conn iTable) at spec
    rw [found] at spec
    refine ⟨(lawful.queryTarget_iff conn iTable spec.1).1 spec.2, fun j same => ?_⟩
    by_contra nearer
    have hit := ((lawful.queryTarget_iff conn iTable same.1).2 same).2
    rw [first j same.1 (by omega)] at hit
    cases hit
  refine ⟨sound, fun nearest => ?_⟩
  rcases lawful.querySearch_cases conn iTable with ⟨slot, other, found, -⟩ | ⟨-, absent⟩
  · have also := sound found
    have equal := Nat.le_antisymm (nearest.2 slot also.1) (also.2 idx nearest.1)
    rw [found, dist_inj hashBound nearest.1.1 also.1.1 equal]
  · have used : (area.pElement idx).iTable ≠ 0 := nearest.1.2.1 ▸ iTable.2
    exact absurd ⟨nearest.1.1, Prod.ext nearest.1.2.1 rfl⟩
      (absent ⟨⟨_, _⟩, lawful.named idx nearest.1.1 used⟩ idx nearest.1.2.2)

/-- The answer of a query, by the nearest entry. -/
theorem Lawful.query_nearest (lawful : area.Lawful cfg) (nearest : area.Nearest cfg conn iTable idx) :
    sqlite3rowlockIpcLockTableQuery cfg conn.1 area iTable.1 = (area.pElement idx).eLock := by
  rw [query_eq, lawful.querySearch_found_iff.2 nearest]

/-- There is no space exactly when the area is full, nobody is in the way, and an entry of the
caller would have to be raised. -/
theorem LockOutcome.nomem_iff {result : Rc × TableArea × Option TableLock}
    (outcome : area.LockOutcome cfg conn iTable eLock mode result) :
    result.1 = .nomem ↔ cfg.nElement - 1 ≤ area.count ∧
      (∀ idx, area.HasAt cfg conn iTable idx → area.Upgradable cfg conn iTable eLock mode idx) ∧
      area.Unopposed cfg conn iTable eLock mode := by
  constructor
  · intro nomem
    cases outcome with
    | nomem full lower unopposed => exact ⟨full, lower, unopposed⟩
    | _ => cases nomem
  · rintro ⟨full, lower, unopposed⟩
    cases outcome with
    | held has enough =>
      have raised := (lower _ has).2.1
      omega
    | force has forced => exact absurd forced (lower _ has).2.2
    | refused opposed =>
      exact absurd opposed.2.2.2 (unopposed _ opposed.1 opposed.2.1 opposed.2.2.1)
    | nomem => rfl
    | upgraded mine room | added bound vacant path absent room => omega

/-- Nobody in the way, a request is granted or lacks space. -/
theorem LockOutcome.granted_or_nomem {result : Rc × TableArea × Option TableLock}
    (outcome : area.LockOutcome cfg conn iTable eLock mode result)
    (unopposed : area.Unopposed cfg conn iTable eLock mode) :
    result.1 = .ok ∨ result.1 = .nomem := by
  cases outcome with
  | nomem => exact Or.inr rfl
  | refused opposed =>
    exact absurd opposed.2.2.2 (unopposed _ opposed.1 opposed.2.1 opposed.2.2.1)
  | _ => exact Or.inl rfl

end TableArea

/-- After any calls, a query tells a connection its own level exactly when the nearest entry under
the number of its owner is its own or has the level of its own. -/
theorem query_own_level_iff (cfg : TableConfig) (calls : List TableCall) (conn : Conn)
    (iTable : RootPage) :
    let area := TableArea.after cfg calls
    ((∀ idx, area.HasAt cfg conn iTable idx →
        sqlite3rowlockIpcLockTableQuery cfg conn.1 area iTable.1 = (area.pElement idx).eLock) ∧
      ((∀ idx, ¬ area.HasAt cfg conn iTable idx) →
        sqlite3rowlockIpcLockTableQuery cfg conn.1 area iTable.1 = .notLocked)) ↔
      ∀ idx, area.Nearest cfg conn iTable idx → (area.pElement idx).pid = conn.1.pid ∨
        (area.pElement idx).eLock = area.level cfg conn iTable := by
  intro area
  have lawful : area.Lawful cfg := TableArea.after_lawful cfg calls
  constructor
  · rintro ⟨own, none_⟩ idx nearest
    right
    rw [← lawful.query_nearest nearest]
    by_cases has : ∃ slot, area.HasAt cfg conn iTable slot
    · obtain ⟨slot, has⟩ := has
      rw [own slot has, lawful.level_eq has]
    · push Not at has
      rw [none_ has, TableArea.level_absent has]
  · intro mine
    have answer : sqlite3rowlockIpcLockTableQuery cfg conn.1 area iTable.1 =
        area.level cfg conn iTable := by
      rcases lawful.querySearch_cases conn iTable with ⟨slot, -, found, -⟩ | ⟨missed, -⟩
      · have nearest := lawful.querySearch_found_iff.1 found
        rw [lawful.query_nearest nearest]
        rcases mine slot nearest with pid | level
        · exact (lawful.level_eq (nearest.1.hasAt_iff.2 pid)).symm
        · exact level
      · apply lawful.query_own
        rintro ⟨idx, -, found, -⟩
        exact missed idx found
    exact ⟨fun idx has => answer.trans (lawful.level_eq has),
      fun none_ => answer.trans (TableArea.level_absent none_)⟩

/-- A second process whose owner has the same number reads a table; the first one is told that it
reads it too. -/
theorem query_reports_other_process :
    let cfg := tableConfig 4 (by decide)
    let area := TableArea.after cfg [.lock connB tableTwo .read .normal]
    (∀ idx < cfg.nElement, ¬ area.HasAt cfg connA tableTwo idx) ∧
      sqlite3rowlockIpcLockTableQuery cfg connA.1 area tableTwo.1 = .read := by
  decide

/-- After any calls, lack of space refuses only requests that need a new entry, and every raise that
meets no conflict is granted, exactly unless the caller would raise an entry without conflict while
all slots but one are used. -/
theorem nomem_needs_slot_iff (cfg : TableConfig) (calls : List TableCall) (conn : Conn)
    (iTable : RootPage) (eLock : TableLock) (mode : LockMode) :
    let area := TableArea.after cfg calls
    let rc := (sqlite3rowlockIpcLockTable cfg conn.1 area iTable.1 eLock mode).1
    let entries := stored tableClass TableElement.content cfg.nElement area.pElement
    ((rc = .nomem → (∀ idx, ¬ area.HasAt cfg conn iTable idx) ∧
          area.Unopposed cfg conn iTable eLock mode ∧ entries.card = cfg.nElement - 1) ∧
        ∀ idx, area.HasAt cfg conn iTable idx →
          (area.pElement idx).eLock.level < eLock.level →
          area.Unopposed cfg conn iTable eLock mode → rc = .ok) ↔
      ¬ ((∃ idx, area.HasAt cfg conn iTable idx ∧
            (area.pElement idx).eLock.level < eLock.level) ∧ mode ≠ .force ∧
          area.Unopposed cfg conn iTable eLock mode ∧ entries.card = cfg.nElement - 1) := by
  intro area rc entries
  have lawful : area.Lawful cfg := TableArea.after_lawful cfg calls
  have counted : area.count = entries.card := lawful.ring.counted
  have room := lawful.ring.room
  have outcome := lawful.lockTable_outcome conn iTable eLock mode
  constructor
  · rintro ⟨only, -⟩ ⟨⟨idx, has, lower⟩, requested, unopposed, full⟩
    have nomem : rc = .nomem := by
      refine outcome.nomem_iff.2 ⟨by omega, fun j own => ?_, unopposed⟩
      rw [lawful.hasAt_unique own has]
      exact ⟨has, lower, requested⟩
    exact (only nomem).1 idx has
  · intro spacious
    -- An own entry that lack of space keeps from being raised is what the condition excludes.
    have absent : rc = .nomem → ∀ idx, ¬ area.HasAt cfg conn iTable idx := by
      intro nomem idx has
      obtain ⟨full, lower, unopposed⟩ := outcome.nomem_iff.1 nomem
      obtain ⟨-, raised, requested⟩ := lower idx has
      exact spacious ⟨⟨idx, has, raised⟩, requested, unopposed, by omega⟩
    refine ⟨fun nomem => ⟨absent nomem, ?_, ?_⟩, fun idx has _ unopposed => ?_⟩
    · exact (outcome.nomem_iff.1 nomem).2.2
    · have full := (outcome.nomem_iff.1 nomem).1
      omega
    · rcases outcome.granted_or_nomem unopposed with granted | nomem
      · exact granted
      · exact absurd has (absent nomem idx)

/-- Two readers in three slots: the first cannot become a writer, although it needs no new entry. -/
theorem upgrade_refused_when_full :
    let cfg := tableConfig 3 (by decide)
    let area := TableArea.after cfg [.lock connA tableTwo .read .normal,
      .lock connB tableTwo .read .normal]
    (∃ idx < cfg.nElement, area.HasAt cfg connA tableTwo idx ∧
        (area.pElement idx).eLock = .read) ∧
      (∀ idx < cfg.nElement, (area.pElement idx).iTable = tableTwo.1 →
        ¬ (area.pElement idx).heldBy connA.1 → ¬ (area.pElement idx).refuses .write .normal) ∧
      (sqlite3rowlockIpcLockTable cfg connA.1 area tableTwo.1 .write .normal).1 = .nomem := by
  decide

end SQLumDash.Ipc
