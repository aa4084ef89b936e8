import SQLumDash.Ipc.RowLocks

/-!
# Call sequences on the row-lock area

Every sequence of calls from the initialised area answers as on a finite map from rows to handles
with room for one entry less than the area has slots.
-/

namespace SQLumDash.Ipc

/-- One call on the row-lock area. -/
inductive RowCall where
  /-- `sqlite3rowlockIpcLockRecord` -/
  | lock (pHandle : Handle) (iTable rowid : Int)
  /-- `sqlite3rowlockIpcLockRecordQuery` -/
  | query (pHandle : Handle) (iTable rowid : Int)
  /-- `sqlite3rowlockIpcUnlockRecord`, which returns nothing. -/
  | unlock (pHandle : Handle) (iTable rowid : Int)

namespace RowCall

/-- The root page a call names. -/
def iTable : RowCall → Int
  | lock _ iTable _ | query _ iTable _ | unlock _ iTable _ => iTable

/-- The answer and the effect of a call on the area. -/
def perform (cfg : RowConfig) (area : RowArea) : RowCall → Option Rc × RowArea
  | lock pHandle iTable rowid =>
    let result := sqlite3rowlockIpcLockRecord cfg pHandle area iTable rowid
    (some result.1, result.2)
  | query pHandle iTable rowid =>
    (some (sqlite3rowlockIpcLockRecordQuery cfg pHandle area iTable rowid), area)
  | unlock _ iTable rowid => (none, sqlite3rowlockIpcUnlockRecord cfg area iTable rowid)

end RowCall

/-- Who holds which row. -/
abbrev LockMap := Finmap fun _ : Int × Int => Handle

/-- A call on the map, for an area of `nElement` slots. -/
def LockMap.perform (nElement : Nat) (map : LockMap) : RowCall → Option Rc × LockMap
  | .lock pHandle iTable rowid =>
    match map.lookup (iTable, rowid) with
    | some holder => (some (if holder = pHandle then .done else .locked), map)
    | none =>
      if map.keys.card = nElement - 1 then (some .nomem, map)
      else (some .ok, map.insert (iTable, rowid) pHandle)
  | .query pHandle iTable rowid =>
    match map.lookup (iTable, rowid) with
    | some holder => (some (if holder = pHandle then .ok else .locked), map)
    | none => (some .ok, map)
  | .unlock _ iTable rowid => (none, map.erase (iTable, rowid))

/-- The answers and the final state of calls. -/
def performAll {State : Type} (perform : State → RowCall → Option Rc × State) (state : State) :
    List RowCall → List (Option Rc) × State
  | [] => ([], state)
  | call :: calls =>
    let result := perform state call
    let rest := performAll perform result.2 calls
    (result.1 :: rest.1, rest.2)

/-- The element that stores one binding of the map. -/
def elementOf (cfg : RowConfig) (binding : Sigma fun _ : Int × Int => Handle) : RowElement :=
  ⟨cfg.xCalcHash binding.1.1 binding.1.2, binding.1.1, binding.1.2, binding.2.pid,
    binding.2.owner⟩

/-- The area stores exactly the bindings of the map. -/
structure Represents (cfg : RowConfig) (area : RowArea) (map : LockMap) : Prop where
  lawful : area.Lawful cfg
  stored : area.entries cfg = map.entries.map (elementOf cfg)
  found : ∀ iTable rowid, iTable ≠ 0 → area.holder cfg iTable rowid = map.lookup (iTable, rowid)
  counted : area.count = (validSlots rowClass cfg.nElement area.pElement).card
  vacancy : ∃ idx < cfg.nElement, (area.pElement idx).iTable = 0

namespace Represents

variable {cfg : RowConfig} {area : RowArea} {map : LockMap}

/-- A lawful area that stores the bindings represents the map. -/
theorem of_stored (lawful : area.Lawful cfg)
    (stored : area.entries cfg = map.entries.map (elementOf cfg)) : Represents cfg area map where
  lawful := lawful
  stored := stored
  found := by
    intro iTable rowid nonzero
    apply Option.ext
    intro pHandle
    rw [lawful.holder_eq_some_iff nonzero, Finmap.lookup_eq_some_iff, stored]
    constructor
    · rintro ⟨elem, member, key, held⟩
      obtain ⟨⟨bound, handle⟩, inMap, rfl⟩ := Multiset.mem_map.1 member
      obtain rfl : bound = (iTable, rowid) := key
      obtain rfl : handle = pHandle := held
      exact inMap
    · intro inMap
      exact ⟨elementOf cfg ⟨(iTable, rowid), pHandle⟩, Multiset.mem_map_of_mem _ inMap, rfl, rfl⟩
  counted := by
    rw [lawful.counted, Ipc.stored, Multiset.card_map, Finset.card_val]
  vacancy := by
    obtain ⟨idx, bound, vacant⟩ := lawful.vacancy
    exact ⟨idx, bound, by simpa [rowClass] using vacant⟩

section

variable (rep : Represents cfg area map)

include rep

/-- The count is the size of the map. -/
theorem count_eq : area.count = map.keys.card := by
  have counted : area.count = (area.entries cfg).card := rep.lawful.counted
  rw [counted, rep.stored, Multiset.card_map]
  exact (Multiset.card_map Sigma.fst map.entries).symm

/-- A lock request answers as the map does. -/
theorem lock_step (pHandle : Handle) {iTable : Int} (nonzero : iTable ≠ 0) (rowid : Int) :
    let actual := (RowCall.lock pHandle iTable rowid).perform cfg area
    let ideal := map.perform cfg.nElement (.lock pHandle iTable rowid)
    actual.1 = ideal.1 ∧ Represents cfg actual.2 ideal.2 := by
  have count := rep.count_eq
  have room := rep.lawful.room
  obtain ⟨kept, spec⟩ := rep.lawful.lock pHandle nonzero rowid
  rw [rep.found iTable rowid nonzero] at spec
  cases bound : map.lookup (iTable, rowid) with
  | some holder =>
    rw [bound] at spec
    simp only [RowCall.perform, LockMap.perform, bound, spec, true_and]
    exact rep
  | none =>
    rw [bound] at spec
    simp only [RowCall.perform, LockMap.perform, bound]
    by_cases crowded : map.keys.card = cfg.nElement - 1
    · rw [if_pos (by omega)] at spec
      rw [if_pos crowded, spec]
      exact ⟨rfl, rep⟩
    · rw [if_neg (by omega)] at spec
      rw [if_neg crowded]
      refine ⟨congrArg some spec.1, of_stored kept ?_⟩
      rw [spec.2.2, rep.stored,
        Finmap.entries_insert_of_notMem (Finmap.lookup_eq_none.1 bound), Multiset.map_cons]
      rfl

/-- A query answers as the map does. -/
theorem query_step (pHandle : Handle) {iTable : Int} (nonzero : iTable ≠ 0) (rowid : Int) :
    let actual := (RowCall.query pHandle iTable rowid).perform cfg area
    let ideal := map.perform cfg.nElement (.query pHandle iTable rowid)
    actual.1 = ideal.1 ∧ Represents cfg actual.2 ideal.2 := by
  have found := rep.found iTable rowid nonzero
  unfold RowArea.holder at found
  cases outcome : rowSearch cfg area iTable rowid with
  | found idx =>
    rw [outcome] at found
    simp only [RowCall.perform, LockMap.perform, sqlite3rowlockIpcLockRecordQuery, outcome, ← found]
    refine ⟨congrArg some ?_, rep⟩
    by_cases mine : (area.pElement idx).heldBy pHandle
    · rw [if_pos mine, if_pos ((RowElement.heldBy_iff _ _).1 mine)]
    · rw [if_neg mine, if_neg fun same => mine ((RowElement.heldBy_iff _ _).2 same)]
  | free idx =>
    rw [outcome] at found
    simp only [RowCall.perform, LockMap.perform, sqlite3rowlockIpcLockRecordQuery, outcome, ← found]
    exact ⟨trivial, rep⟩
  | full => exact absurd outcome (rep.lawful.search_not_full (cfg.hash_lt iTable rowid))

/-- An unlock removes the binding of its row. -/
theorem unlock_step {iTable : Int} (nonzero : iTable ≠ 0) (rowid : Int) :
    Represents cfg (sqlite3rowlockIpcUnlockRecord cfg area iTable rowid)
      (map.erase (iTable, rowid)) := by
  have found := rep.found iTable rowid nonzero
  cases bound : map.lookup (iTable, rowid) with
  | none =>
    have absent : map.erase (iTable, rowid) = map := by
      apply Finmap.ext_lookup
      intro key
      by_cases same : key = (iTable, rowid)
      · rw [same, Finmap.lookup_erase, bound]
      · exact Finmap.lookup_erase_ne same
    rw [absent, RowArea.unlock_absent (found.trans bound)]
    exact rep
  | some pHandle =>
    have restored : (map.erase (iTable, rowid)).insert (iTable, rowid) pHandle = map := by
      apply Finmap.ext_lookup
      intro key
      by_cases same : key = (iTable, rowid)
      · rw [same, Finmap.lookup_insert, bound]
      · rw [Finmap.lookup_insert_of_ne _ same, Finmap.lookup_erase_ne same]
    have member : elementOf cfg ⟨(iTable, rowid), pHandle⟩ ∈ area.entries cfg := by
      rw [rep.stored]
      exact Multiset.mem_map_of_mem _ (Finmap.lookup_eq_some_iff.1 bound)
    obtain ⟨kept, split⟩ := rep.lawful.unlock member
    have bindings := Finmap.entries_insert_of_notMem (b := pHandle)
      (Finmap.notMem_erase_self (s := map) (a := (iTable, rowid)))
    rw [restored] at bindings
    apply of_stored kept
    have stored := rep.stored
    rw [split, bindings, Multiset.map_cons] at stored
    exact (Multiset.cons_inj_right _).1 stored

/-- One call answers as the map does. -/
theorem step (call : RowCall) (nonzero : call.iTable ≠ 0) :
    (call.perform cfg area).1 = (map.perform cfg.nElement call).1 ∧
      Represents cfg (call.perform cfg area).2 (map.perform cfg.nElement call).2 := by
  cases call with
  | lock pHandle iTable rowid => exact rep.lock_step pHandle nonzero rowid
  | query pHandle iTable rowid => exact rep.query_step pHandle nonzero rowid
  | unlock pHandle iTable rowid => exact ⟨rfl, rep.unlock_step nonzero rowid⟩

end

/-- A sequence of calls answers as the map does. -/
theorem performAll (calls : List RowCall) :
    ∀ {area : RowArea} {map : LockMap}, Represents cfg area map →
      (∀ call ∈ calls, call.iTable ≠ 0) →
      let actual := Ipc.performAll (RowCall.perform cfg) area calls
      let ideal := Ipc.performAll (LockMap.perform cfg.nElement) map calls
      actual.1 = ideal.1 ∧ Represents cfg actual.2 ideal.2 := by
  induction calls with
  | nil => exact fun rep _ => ⟨rfl, rep⟩
  | cons call calls ih =>
    intro area map rep nonzero
    obtain ⟨answer, next⟩ := rep.step call (nonzero call List.mem_cons_self)
    obtain ⟨answers, final⟩ := ih next fun later member =>
      nonzero later (List.mem_cons_of_mem call member)
    exact ⟨congrArg₂ List.cons answer answers, final⟩

end Represents

/-- From the initialised area on, the row-lock area is a finite map from rows to handles: every call
is answered as the map answers it, and the area stores the map. -/
theorem rowArea_refines_lockMap (cfg : RowConfig) (calls : List RowCall)
    (nonzero : ∀ call ∈ calls, call.iTable ≠ 0) :
    let actual := performAll (RowCall.perform cfg) rowClassInitArea calls
    let ideal := performAll (LockMap.perform cfg.nElement) ∅ calls
    actual.1 = ideal.1 ∧ Represents cfg actual.2 ideal.2 := by
  apply Represents.performAll calls _ nonzero
  apply Represents.of_stored (RowArea.init_lawful cfg)
  apply Multiset.eq_zero_of_forall_notMem
  intro elem member
  obtain ⟨idx, -, rfl, valid⟩ := RowArea.mem_entries.1 member
  exact valid rfl

/-- Two connections contend for two rows in two slots. -/
def contention : List RowCall :=
  [.lock ⟨1, 1⟩ 2 7, .lock ⟨2, 1⟩ 2 7, .lock ⟨1, 1⟩ 2 7, .lock ⟨2, 1⟩ 2 8, .query ⟨2, 1⟩ 2 7,
    .unlock ⟨1, 1⟩ 2 7, .lock ⟨2, 1⟩ 2 8]

/-- The answers to two connections in two slots. -/
theorem rowArea_refines_lockMap_contention :
    (∀ call ∈ contention, call.iTable ≠ 0) ∧
    let actual := performAll (RowCall.perform (rowConfig 2 (by decide))) rowClassInitArea contention
    let ideal := performAll (LockMap.perform 2) ∅ contention
    actual.1 = ideal.1 ∧ Represents (rowConfig 2 (by decide)) actual.2 ideal.2 :=
  ⟨by decide, rowArea_refines_lockMap (rowConfig 2 (by decide)) contention (by decide)⟩

example : (performAll (RowCall.perform (rowConfig 2 (by decide))) rowClassInitArea contention).1 =
    [some .ok, some .locked, some .done, some .nomem, some .locked, none, some .ok] := by
  decide

end SQLumDash.Ipc
