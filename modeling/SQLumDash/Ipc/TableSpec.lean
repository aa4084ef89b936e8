import SQLumDash.Ipc.LockArea
import SQLumDash.Ipc.Table

/-!
# What the table-lock operations do

The two operations are described by their outcomes: which entry a lock request adds or changes, and
which entry an unlock removes or only resets.
-/

namespace SQLumDash.Ipc

open Probing Function

/-- What copying carries over: everything but the flag. -/
def TableElement.content (elem : TableElement) : TableElement := { elem with inUse := false }

/-- The table and connection an element is stored for. -/
def TableElement.key (elem : TableElement) : Int × Handle := (elem.iTable, ⟨elem.pid, elem.owner⟩)

/-- The content has the key. -/
theorem TableElement.key_content (elem : TableElement) : elem.content.key = elem.key := rfl

/-- The key has the holder. -/
theorem TableElement.heldBy_iff (elem : TableElement) (pHandle : Handle) :
    elem.heldBy pHandle ↔ elem.key.2 = pHandle := by
  cases pHandle
  simp only [heldBy, key, Handle.mk.injEq]

/-- The callbacks are lawful. -/
theorem tableClass_lawful : tableClass.Lawful TableElement.content where
  copy _ _ := rfl
  valid a b same := by
    have table : a.content.iTable = b.content.iTable := by rw [same]
    change a.iTable = b.iTable at table
    simp only [tableClass, table]
  hash a b same := by
    have hash : a.content.hash = b.content.hash := by rw [same]
    exact hash
  clear _ := rfl

/-- Entries have a table. -/
theorem tableClass_valid_iff {elem : TableElement} :
    tableClass.xElemIsValid elem = true ↔ elem.iTable ≠ 0 := by
  simp only [tableClass, decide_eq_true_eq]

/-- What the verdict on an entry says about it. -/
theorem TableElement.verdict_spec (elem : TableElement) (pHandle : Handle) (iTable : Int)
    (eLock : TableLock) (mode : LockMode) :
    match elem.verdict pHandle iTable eLock mode with
    | .pass => elem.iTable = iTable → ¬ elem.heldBy pHandle ∧ ¬ elem.refuses eLock mode
    | .own => elem.iTable = iTable ∧ elem.heldBy pHandle ∧ elem.eLock.level < eLock.level ∧
        mode ≠ .force
    | .force => elem.iTable = iTable ∧ elem.heldBy pHandle ∧ mode = .force
    | .held => elem.iTable = iTable ∧ elem.heldBy pHandle ∧ eLock.level ≤ elem.eLock.level ∧
        mode ≠ .force
    | .refuse => elem.iTable = iTable ∧ ¬ elem.heldBy pHandle ∧ elem.refuses eLock mode := by
  unfold verdict
  by_cases table : elem.iTable = iTable
  · rw [if_pos table]
    by_cases mine : elem.heldBy pHandle
    · rw [if_pos mine]
      by_cases forced : mode = .force
      · rw [if_pos forced]
        exact ⟨table, mine, forced⟩
      · rw [if_neg forced]
        by_cases enough : eLock.level ≤ elem.eLock.level
        · rw [if_pos enough]
          exact ⟨table, mine, enough, forced⟩
        · rw [if_neg enough]
          exact ⟨table, mine, Nat.lt_of_not_le enough, forced⟩
    · rw [if_neg mine]
      by_cases refusing : elem.refuses eLock mode
      · rw [if_pos refusing]
        exact ⟨table, mine, refusing⟩
      · rw [if_neg refusing]
        exact fun _ => ⟨mine, refusing⟩
  · rw [if_neg table]
    exact fun same => absurd same table

namespace TableArea

variable (cfg : TableConfig)

/-- One entry per table and connection, none under a wildcard. -/
structure Lawful (area : TableArea) : Prop where
  ring : LockArea.Lawful tableClass TableElement.content TableElement.key
    (fun key => cfg.xCalcHash key.1) cfg.nElement area
  named : ∀ idx < cfg.nElement, (area.pElement idx).iTable ≠ 0 →
    (area.pElement idx).pid ≠ 0 ∧ (area.pElement idx).owner ≠ 0

/-- The entry of this connection for this table. -/
def HasAt (area : TableArea) (conn : Conn) (iTable : RootPage) (idx : Nat) : Prop :=
  idx < cfg.nElement ∧ (area.pElement idx).key = (iTable.1, conn.1)

/-- No other connection's entry stands in the way. -/
def Unopposed (area : TableArea) (conn : Conn) (iTable : RootPage) (eLock : TableLock)
    (mode : LockMode) : Prop :=
  ∀ j < cfg.nElement, (area.pElement j).iTable = iTable.1 →
    ¬ (area.pElement j).heldBy conn.1 → ¬ (area.pElement j).refuses eLock mode

variable {cfg} {area : TableArea} {conn : Conn} {iTable : RootPage} {eLock : TableLock}
  {mode : LockMode} {idx : Nat}

instance : Decidable (area.HasAt cfg conn iTable idx) := inferInstanceAs (Decidable (_ ∧ _))

/-- The initialised area is lawful. -/
theorem init_lawful (cfg : TableConfig) : tableClassInitArea.Lawful cfg := by
  have size := cfg.two_le
  exact ⟨LockArea.Lawful.of_empty (fun _ => rfl) rfl (by omega), fun _ _ used => absurd rfl used⟩

/-- The entry is of the table. -/
theorem HasAt.iTable_eq (has : area.HasAt cfg conn iTable idx) :
    (area.pElement idx).iTable = iTable.1 := congrArg Prod.fst has.2

/-- The slot is used. -/
theorem HasAt.valid (has : area.HasAt cfg conn iTable idx) :
    tableClass.xElemIsValid (area.pElement idx) = true := by
  rw [tableClass_valid_iff, has.iTable_eq]
  exact iTable.2

/-- The connection holds it. -/
theorem HasAt.heldBy (has : area.HasAt cfg conn iTable idx) :
    (area.pElement idx).heldBy conn.1 := by
  rw [TableElement.heldBy_iff, has.2]

/-- The fields of the entry. -/
theorem hasAt_iff : area.HasAt cfg conn iTable idx ↔ idx < cfg.nElement ∧
    (area.pElement idx).iTable = iTable.1 ∧ (area.pElement idx).heldBy conn.1 := by
  unfold HasAt
  rw [TableElement.heldBy_iff, Prod.ext_iff]
  rfl

/-- What is known about a slot that was passed. -/
def Passed (area : TableArea) (conn : Conn) (iTable : RootPage) (eLock : TableLock)
    (mode : LockMode) (own : Option Nat) (j : Nat) : Prop :=
  tableClass.xElemIsValid (area.pElement j) = true ∧
    ((area.pElement j).iTable = iTable.1 →
      ((area.pElement j).heldBy conn.1 →
        own ≠ none ∧ (area.pElement j).eLock.level < eLock.level) ∧
      (¬ (area.pElement j).heldBy conn.1 → ¬ (area.pElement j).refuses eLock mode))

section

variable (cfg : TableConfig) (area : TableArea) (conn : Conn) (iTable : RootPage) (eLock : TableLock)

/-- A lock request passed every slot before this one. -/
def PassedBefore (mode : LockMode) (own : Option Nat) (idx : Nat) : Prop :=
  ∀ j < cfg.nElement, dist cfg.nElement (cfg.xCalcHash iTable.1) j <
    dist cfg.nElement (cfg.xCalcHash iTable.1) idx → area.Passed conn iTable eLock mode own j

/-- Another connection's entry that stands in the way. -/
def RefusedAt (mode : LockMode) (idx : Nat) : Prop :=
  idx < cfg.nElement ∧ (area.pElement idx).iTable = iTable.1 ∧
    ¬ (area.pElement idx).heldBy conn.1 ∧ (area.pElement idx).refuses eLock mode

/-- The requester's own entry, at a lower level. -/
def Upgradable (mode : LockMode) (idx : Nat) : Prop :=
  area.HasAt cfg conn iTable idx ∧ (area.pElement idx).eLock.level < eLock.level ∧ mode ≠ .force

/-- What each end of the loop says about the area. -/
def LockScanSpec (mode : LockMode) : LockScan → Prop
  | .held => ∃ idx own, area.HasAt cfg conn iTable idx ∧
      eLock.level ≤ (area.pElement idx).eLock.level ∧ mode ≠ .force ∧
      area.PassedBefore cfg conn iTable eLock mode own idx
  | .force idx => area.HasAt cfg conn iTable idx ∧ mode = .force
  | .refused => ∃ idx own, area.RefusedAt cfg conn iTable eLock mode idx ∧
      area.PassedBefore cfg conn iTable eLock mode own idx
  | .full => ∀ j < cfg.nElement, tableClass.xElemIsValid (area.pElement j) = true
  | .stop idx own => idx < cfg.nElement ∧ tableClass.xElemIsValid (area.pElement idx) = false ∧
      area.PassedBefore cfg conn iTable eLock mode own idx ∧
      ∀ j ∈ own, area.Upgradable cfg conn iTable eLock mode j

end

/-- The loop knows the slots it has passed. -/
theorem lockTableLoop_spec (fuel : Nat) :
    ∀ (idx : Nat) (own : Option Nat), idx < cfg.nElement →
      cfg.nElement - dist cfg.nElement (cfg.xCalcHash iTable.1) idx ≤ fuel →
      area.PassedBefore cfg conn iTable eLock mode own idx →
      (∀ j ∈ own, area.Upgradable cfg conn iTable eLock mode j) →
      LockScanSpec cfg area conn iTable eLock mode
        (lockTableLoop cfg area.pElement conn.1 iTable.1 eLock mode fuel idx own) := by
  have hashBound := cfg.hash_lt iTable.1
  induction fuel with
  | zero =>
    intro idx own bound enough
    have short := dist_lt (a := cfg.xCalcHash iTable.1) bound
    omega
  | succ fuel ih =>
    intro idx own bound enough visited mine
    -- A slot that is passed puts its successor under the induction hypothesis.
    have advance : ∀ own' : Option Nat, (own ≠ none → own' ≠ none) →
        area.Passed conn iTable eLock mode own' idx →
        (∀ j ∈ own', area.Upgradable cfg conn iTable eLock mode j) →
        LockScanSpec cfg area conn iTable eLock mode
          (if xIndexNext cfg.nElement idx = cfg.xCalcHash iTable.1 then .full
          else lockTableLoop cfg area.pElement conn.1 iTable.1 eLock mode fuel
            (xIndexNext cfg.nElement idx) own') := by
      intro own' grows here mine'
      have visited' : area.PassedBefore cfg conn iTable eLock mode own' idx := by
        intro j target near
        obtain ⟨valid, passed⟩ := visited j target near
        refine ⟨valid, fun table => ⟨fun held => ?_, (passed table).2⟩⟩
        obtain ⟨seen, lower⟩ := (passed table).1 held
        exact ⟨grows seen, lower⟩
      by_cases last : xIndexNext cfg.nElement idx = cfg.xCalcHash iTable.1
      · rw [if_pos last]
        intro j target
        exact (visit_all hashBound bound last visited' here j target).1
      · rw [if_neg last]
        apply ih _ _ (next_lt bound) _ (visit_next hashBound bound last visited' here) mine'
        rw [dist_next_of_ne hashBound bound last]
        omega
    unfold lockTableLoop
    by_cases valid : tableClass.xElemIsValid (area.pElement idx) = true
    · have spec := (area.pElement idx).verdict_spec conn.1 iTable.1 eLock mode
      simp only [valid, if_true]
      cases outcome : (area.pElement idx).verdict conn.1 iTable.1 eLock mode with
      | pass =>
        rw [outcome] at spec
        simp only [reduceCtorEq, if_false]
        refine advance own id ⟨valid, fun table => ⟨fun held => ?_, fun _ => (spec table).2⟩⟩ mine
        exact absurd held (spec table).1
      | own =>
        rw [outcome] at spec
        simp only [if_true]
        refine advance (some idx) (fun _ => by simp) ⟨valid, fun table => ⟨fun _ =>
          ⟨by simp, spec.2.2.1⟩, fun other => absurd spec.2.1 other⟩⟩ ?_
        intro j here
        cases here
        exact ⟨hasAt_iff.2 ⟨bound, spec.1, spec.2.1⟩, spec.2.2⟩
      | force =>
        rw [outcome] at spec
        exact ⟨hasAt_iff.2 ⟨bound, spec.1, spec.2.1⟩, spec.2.2⟩
      | held =>
        rw [outcome] at spec
        exact ⟨idx, own, hasAt_iff.2 ⟨bound, spec.1, spec.2.1⟩, spec.2.2.1, spec.2.2.2, visited⟩
      | refuse =>
        rw [outcome] at spec
        exact ⟨idx, own, ⟨bound, spec⟩, visited⟩
    · simp only [valid]
      exact ⟨bound, Bool.eq_false_iff.2 valid, visited, mine⟩

/-- Writing an entry marks it in use. -/
theorem hasAt_valueSet {count : Nat} (bound : idx < cfg.nElement) :
    let area' : TableArea :=
      ⟨count, rowlockIpcTableValueSet cfg area.pElement idx conn.1 iTable.1 eLock⟩
    area'.HasAt cfg conn iTable idx ∧ (area'.pElement idx).inUse = true := by
  have written : rowlockIpcTableValueSet cfg area.pElement idx conn.1 iTable.1 eLock idx =
      ⟨cfg.xCalcHash iTable.1, iTable.1, conn.1.pid, conn.1.owner, eLock, true⟩ :=
    update_self ..
  exact ⟨⟨bound, congrArg TableElement.key written⟩, congrArg TableElement.inUse written⟩

/-- The ways a lock request can end. -/
inductive LockOutcome (cfg : TableConfig) (area : TableArea) (conn : Conn) (iTable : RootPage)
    (eLock : TableLock) (mode : LockMode) : Rc × TableArea × Option TableLock → Prop
  | held {idx : Nat} (has : area.HasAt cfg conn iTable idx)
      (enough : eLock.level ≤ (area.pElement idx).eLock.level) (normal : mode ≠ .force)
      {own : Option Nat} (front : area.PassedBefore cfg conn iTable eLock mode own idx) :
      LockOutcome cfg area conn iTable eLock mode (.ok, area, none)
  /-- The level of the connection's entry is overwritten. -/
  | force {idx : Nat} (has : area.HasAt cfg conn iTable idx) (forced : mode = .force) :
      LockOutcome cfg area conn iTable eLock mode (.ok, ⟨area.count,
        update area.pElement idx { area.pElement idx with eLock := eLock }⟩, none)
  | refused {idx : Nat} (opposed : area.RefusedAt cfg conn iTable eLock mode idx)
      {own : Option Nat} (front : area.PassedBefore cfg conn iTable eLock mode own idx) :
      LockOutcome cfg area conn iTable eLock mode (.locked, area, none)
  | nomem (full : cfg.nElement - 1 ≤ area.count)
      (lower : ∀ j, area.HasAt cfg conn iTable j → area.Upgradable cfg conn iTable eLock mode j)
      (unopposed : area.Unopposed cfg conn iTable eLock mode) :
      LockOutcome cfg area conn iTable eLock mode (.nomem, area, none)
  /-- The entry is raised and marked in use. -/
  | upgraded {idx : Nat} (mine : area.Upgradable cfg conn iTable eLock mode idx)
      (room : area.count < cfg.nElement - 1)
      (unopposed : area.Unopposed cfg conn iTable eLock mode) :
      LockOutcome cfg area conn iTable eLock mode (.ok, ⟨area.count,
        rowlockIpcTableValueSet cfg area.pElement idx conn.1 iTable.1 eLock⟩,
        some (area.pElement idx).eLock)
  /-- A new entry is stored and marked in use. -/
  | added {idx : Nat} (bound : idx < cfg.nElement)
      (vacant : tableClass.xElemIsValid (area.pElement idx) = false)
      (path : ∀ j < cfg.nElement, dist cfg.nElement (cfg.xCalcHash iTable.1) j <
        dist cfg.nElement (cfg.xCalcHash iTable.1) idx →
          tableClass.xElemIsValid (area.pElement j) = true)
      (absent : ∀ j, ¬ area.HasAt cfg conn iTable j) (room : area.count < cfg.nElement - 1)
      (unopposed : area.Unopposed cfg conn iTable eLock mode) :
      LockOutcome cfg area conn iTable eLock mode (.ok, ⟨area.count + 1,
        rowlockIpcTableValueSet cfg area.pElement idx conn.1 iTable.1 eLock⟩,
        some (area.pElement idx).eLock)

namespace Lawful

/-- An entry lies before the first empty slot. -/
theorem before_vacant (lawful : area.Lawful cfg) {stop : Nat} (bound : idx < cfg.nElement)
    (table : (area.pElement idx).iTable = iTable.1) (stopBound : stop < cfg.nElement)
    (vacant : tableClass.xElemIsValid (area.pElement stop) = false) :
    dist cfg.nElement (cfg.xCalcHash iTable.1) idx <
      dist cfg.nElement (cfg.xCalcHash iTable.1) stop := by
  have valid : tableClass.xElemIsValid (area.pElement idx) = true := by
    rw [tableClass_valid_iff, table]
    exact iTable.2
  have before := lawful.ring.before_vacant bound valid stopBound vacant
  change dist cfg.nElement (cfg.xCalcHash (area.pElement idx).iTable) idx <
    dist cfg.nElement (cfg.xCalcHash (area.pElement idx).iTable) stop at before
  rw [table] at before
  exact before

/-- A connection has at most one entry for a table. -/
theorem hasAt_unique (lawful : area.Lawful cfg) {other : Nat}
    (has : area.HasAt cfg conn iTable idx) (has' : area.HasAt cfg conn iTable other) :
    idx = other :=
  lawful.ring.slot_unique has.1 has'.1 has.valid has'.valid (has.2.trans has'.2.symm)

/-- What a whole lock request found. -/
theorem lockScan_spec (cfg : TableConfig) (area : TableArea) (conn : Conn) (iTable : RootPage)
    (eLock : TableLock) (mode : LockMode) :
    LockScanSpec cfg area conn iTable eLock mode (lockTableLoop cfg area.pElement conn.1 iTable.1
      eLock mode cfg.nElement (cfg.xCalcHash iTable.1) none) := by
  have hashBound := cfg.hash_lt iTable.1
  apply lockTableLoop_spec cfg.nElement _ none hashBound (Nat.sub_le _ _)
  · intro j target near
    rw [(dist_eq_zero hashBound hashBound).2 rfl] at near
    omega
  · intro j absurd
    cases absurd

section

variable (lawful : area.Lawful cfg)

include lawful

/-- Every lock request has one of the outcomes. -/
theorem lockTable_outcome (conn : Conn) (iTable : RootPage) (eLock : TableLock) (mode : LockMode) :
    LockOutcome cfg area conn iTable eLock mode
      (sqlite3rowlockIpcLockTable cfg conn.1 area iTable.1 eLock mode) := by
  have hashBound := cfg.hash_lt iTable.1
  have spec := lockScan_spec cfg area conn iTable eLock mode
  unfold sqlite3rowlockIpcLockTable
  cases outcome : lockTableLoop cfg area.pElement conn.1 iTable.1 eLock mode cfg.nElement
      (cfg.xCalcHash iTable.1) none with
  | held =>
    rw [outcome] at spec
    obtain ⟨idx, own, has, enough, normal, front⟩ := spec
    exact .held has enough normal front
  | force idx =>
    rw [outcome] at spec
    exact .force spec.1 spec.2
  | refused =>
    rw [outcome] at spec
    obtain ⟨idx, own, opposed, front⟩ := spec
    exact .refused opposed front
  | full =>
    rw [outcome] at spec
    obtain ⟨j, bound, vacant⟩ := lawful.ring.vacancy
    rw [spec j bound] at vacant
    cases vacant
  | stop idx own =>
    rw [outcome] at spec
    obtain ⟨bound, vacant, passed, mine⟩ := spec
    have unopposed : area.Unopposed cfg conn iTable eLock mode := fun j target table =>
      ((passed j target (lawful.before_vacant target table bound vacant)).2 table).2
    dsimp only
    -- The requester's entry, if there is one, was passed and remembered.
    have seen : ∀ j, area.HasAt cfg conn iTable j → own = some j := by
      intro j has
      have near := lawful.before_vacant has.1 has.iTable_eq bound vacant
      have remembered := (((passed j has.1 near).2 has.iTable_eq).1 has.heldBy).1
      obtain ⟨slot, rfl⟩ := Option.ne_none_iff_exists'.1 remembered
      rw [lawful.hasAt_unique (mine slot rfl).1 has]
    by_cases room : area.count ≥ cfg.nElement - 1
    · rw [if_pos room]
      exact .nomem room (fun j has => mine j (seen j has)) unopposed
    · rw [if_neg room]
      cases own with
      | some own => exact .upgraded (mine own rfl) (Nat.lt_of_not_le room) unopposed
      | none =>
        refine .added bound vacant (fun j target near => (passed j target near).1) ?_
          (Nat.lt_of_not_le room) unopposed
        intro j has
        cases seen j has

section

variable (has : area.HasAt cfg conn iTable idx)

include has

/-- An entry has the hash of its table. -/
theorem hash_eq : (area.pElement idx).hash = cfg.xCalcHash iTable.1 := by
  have hashed := lawful.ring.hashed idx has.1 has.valid
  change (area.pElement idx).hash = cfg.xCalcHash (area.pElement idx).iTable at hashed
  rw [hashed, has.iTable_eq]

/-- An own entry may be written anew. -/
theorem overwrite {elem : TableElement} (key : elem.key = (iTable.1, conn.1))
    (hash : elem.hash = cfg.xCalcHash iTable.1) :
    TableArea.Lawful cfg ⟨area.count, update area.pElement idx elem⟩ := by
  have table : elem.iTable = iTable.1 := congrArg Prod.fst key
  have valid : tableClass.xElemIsValid elem = true := by
    rw [tableClass_valid_iff, table]
    exact iTable.2
  refine ⟨lawful.ring.overwrite has.valid valid (hash.trans (lawful.hash_eq has).symm)
    (key.trans has.2.symm), fun j target used => ?_⟩
  change (update area.pElement idx elem j).iTable ≠ 0 at used
  change (update area.pElement idx elem j).pid ≠ 0 ∧
    (update area.pElement idx elem j).owner ≠ 0
  by_cases here : j = idx
  · have handle : (⟨elem.pid, elem.owner⟩ : Handle) = conn.1 := congrArg Prod.snd key
    rw [here, update_self]
    have named := conn.2
    rw [← handle] at named
    exact named
  · rw [update_of_ne here] at used ⊢
    exact lawful.named j target used

/-- What is left was there before, up to its flag. -/
theorem remove_source {j : Nat} (target : j < cfg.nElement)
    (used : ((removeSlot tableClass cfg.nElement area (home tableClass area.pElement idx)
      idx).pElement j).iTable ≠ 0) : ∃ i < cfg.nElement, (area.pElement i).content =
      ((removeSlot tableClass cfg.nElement area (home tableClass area.pElement idx)
        idx).pElement j).content := by
  obtain ⟨-, split, -⟩ := lawful.ring.remove tableClass_lawful has.1 has.valid
  generalize removeSlot tableClass cfg.nElement area (home tableClass area.pElement idx) idx = area'
    at split used
  have before : (area'.pElement j).content ∈ stored tableClass TableElement.content cfg.nElement
      area.pElement := by
    rw [split]
    exact Multiset.mem_cons_of_mem
      (LockArea.mem_stored.2 ⟨j, target, tableClass_valid_iff.2 used, rfl⟩)
  obtain ⟨i, bound, -, same⟩ := LockArea.mem_stored.1 before
  exact ⟨i, bound, same⟩

/-- Removing an entry keeps the invariant. -/
theorem remove : TableArea.Lawful cfg (removeSlot tableClass cfg.nElement area
      (home tableClass area.pElement idx) idx) := by
  obtain ⟨ring, -⟩ := lawful.ring.remove tableClass_lawful has.1 has.valid
  refine ⟨ring, fun j target used => ?_⟩
  obtain ⟨i, bound, same⟩ := lawful.remove_source has target used
  generalize removeSlot tableClass cfg.nElement area (home tableClass area.pElement idx) idx = area'
    at same used
  have table : (area.pElement i).iTable = (area'.pElement j).iTable := congrArg (·.iTable) same
  have pid : (area.pElement i).pid = (area'.pElement j).pid := congrArg (·.pid) same
  have owner : (area.pElement i).owner = (area'.pElement j).owner := congrArg (·.owner) same
  rw [← pid, ← owner]
  exact lawful.named i bound (table ▸ used)

end

end

end Lawful

variable {result : Rc × TableArea × Option TableLock}

section

variable (outcome : LockOutcome cfg area conn iTable eLock mode result)

include outcome

/-- A request keeps the area lawful. -/
theorem LockOutcome.lawful (lawful : area.Lawful cfg) : result.2.1.Lawful cfg := by
  cases outcome with
  | held | refused | nomem => exact lawful
  | force has => exact lawful.overwrite has has.2 (lawful.hash_eq has)
  | upgraded mine => exact lawful.overwrite mine.1 rfl rfl
  | @added idx bound vacant path absent room unopposed =>
    have valid : tableClass.xElemIsValid
        ⟨cfg.xCalcHash iTable.1, iTable.1, conn.1.pid, conn.1.owner, eLock, true⟩ = true :=
      tableClass_valid_iff.2 iTable.2
    have missing : ∀ entry ∈ stored tableClass TableElement.content cfg.nElement area.pElement,
        entry.key ≠ (iTable.1, conn.1) := by
      intro entry member same
      obtain ⟨j, target, -, rfl⟩ := LockArea.mem_stored.1 member
      exact absent j ⟨target, same⟩
    obtain ⟨ring, -⟩ := lawful.ring.store bound vacant valid (cfg.hash_lt _) path rfl missing room
    refine ⟨ring, fun j target used => ?_⟩
    change (rowlockIpcTableValueSet cfg area.pElement idx conn.1 iTable.1 eLock j).iTable ≠ 0
      at used
    change (rowlockIpcTableValueSet cfg area.pElement idx conn.1 iTable.1 eLock j).pid ≠ 0 ∧
      (rowlockIpcTableValueSet cfg area.pElement idx conn.1 iTable.1 eLock j).owner ≠ 0
    unfold rowlockIpcTableValueSet at used ⊢
    by_cases here : j = idx
    · rw [here, update_self]
      exact conn.2
    · rw [update_of_ne here] at used ⊢
      exact lawful.named j target used

/-- A lock request leaves the entries of others alone. -/
theorem LockOutcome.frame {j : Nat} (valid : tableClass.xElemIsValid (area.pElement j) = true)
    (other : ¬ area.HasAt cfg conn iTable j) : result.2.1.pElement j = area.pElement j := by
  cases outcome with
  | held | refused | nomem => rfl
  | force has => exact update_of_ne (fun same : j = _ => other (same ▸ has)) _ _
  | upgraded mine => exact update_of_ne (fun same : j = _ => other (same ▸ mine.1)) _ _
  | added bound vacant =>
    refine update_of_ne (fun same => ?_) _ _
    rw [same, vacant] at valid
    cases valid

/-- A granted request was unopposed, or held. -/
theorem LockOutcome.unopposed (granted : result.1 = .ok) (normal : mode ≠ .force)
    (fresh : ∀ idx, area.HasAt cfg conn iTable idx →
      ¬ eLock.level ≤ (area.pElement idx).eLock.level) :
    area.Unopposed cfg conn iTable eLock mode := by
  cases outcome with
  | held has enough => exact absurd enough (fresh _ has)
  | force has forced => exact absurd forced normal
  | refused | nomem => cases granted
  | upgraded mine room unopposed | added bound vacant path absent room unopposed => exact unopposed

/-- A granted request leaves an entry in use, if a sufficient one was. -/
theorem LockOutcome.flagged (granted : result.1 = .ok) (normal : mode ≠ .force)
    (flagged : ∀ idx, area.HasAt cfg conn iTable idx →
      eLock.level ≤ (area.pElement idx).eLock.level → (area.pElement idx).inUse = true) :
    ∃ idx, result.2.1.HasAt cfg conn iTable idx ∧ (result.2.1.pElement idx).inUse = true := by
  cases outcome with
  | held has enough => exact ⟨_, has, flagged _ has enough⟩
  | force has forced => exact absurd forced normal
  | refused | nomem => cases granted
  | upgraded mine => exact ⟨_, hasAt_valueSet mine.1.1⟩
  | added bound => exact ⟨_, hasAt_valueSet bound⟩

/-- A lock request keeps entries that are marked in use. -/
theorem LockOutcome.flag_kept {other : Conn} {table : RootPage} {j : Nat} (lawful : area.Lawful cfg)
    (has : area.HasAt cfg other table j) (flagged : (area.pElement j).inUse = true) :
    ∃ j, result.2.1.HasAt cfg other table j ∧ (result.2.1.pElement j).inUse = true := by
  by_cases mine : area.HasAt cfg conn iTable j
  · have key := mine.2.symm.trans has.2
    obtain rfl : iTable = table := Subtype.ext (congrArg Prod.fst key)
    obtain rfl : conn = other := Subtype.ext (congrArg Prod.snd key)
    cases outcome with
    | held | refused | nomem => exact ⟨j, has, flagged⟩
    | @force slot has' =>
      have written : update area.pElement slot { area.pElement slot with eLock := eLock }
          slot = { area.pElement slot with eLock := eLock } := update_self ..
      refine ⟨slot, ⟨has'.1, (congrArg TableElement.key written).trans has'.2⟩,
        (congrArg TableElement.inUse written).trans ?_⟩
      rw [← lawful.hasAt_unique has has']
      exact flagged
    | upgraded mine => exact ⟨_, hasAt_valueSet mine.1.1⟩
    | added bound vacant path absent => exact absurd has (absent j)
  · have same := outcome.frame has.valid mine
    exact ⟨j, ⟨has.1, same ▸ has.2⟩, same ▸ flagged⟩

end

/-- Resetting a flag changes nothing else. -/
theorem content_reset (j : Nat) :
    (update area.pElement idx { area.pElement idx with inUse := false } j).content =
      (area.pElement j).content := by
  by_cases here : j = idx
  · rw [here, update_self]
    rfl
  · rw [update_of_ne here]

/-- A zero process or owner stands for all connections. -/
def Matches (pHandle : Handle) (owner : Conn) : Prop :=
  (pHandle.owner = 0 ∨ owner.1.owner = pHandle.owner) ∧
    (pHandle.pid = 0 ∨ owner.1.pid = pHandle.pid)

/-- The handle of a connection stands for it only. -/
theorem matches_conn {owner : Conn} : Matches conn.1 owner ↔ owner = conn := by
  constructor
  · rintro ⟨sameOwner, samePid⟩
    have ownerEq := sameOwner.resolve_left conn.2.2
    have pidEq := samePid.resolve_left conn.2.1
    apply Subtype.ext
    cases handle : owner.1
    cases handle' : conn.1
    simp_all
  · rintro rfl
    exact ⟨Or.inr rfl, Or.inr rfl⟩

/-- The ways an unlock can end. -/
inductive UnlockOutcome (cfg : TableConfig) (area : TableArea) (pHandle : Handle)
    (iTable : RootPage) (mode : UnlockMode) : TableArea → Prop
  /-- There is no matching entry. -/
  | absent (absent : ∀ owner idx, Matches pHandle owner → ¬ area.HasAt cfg owner iTable idx) :
      UnlockOutcome cfg area pHandle iTable mode area
  | removed {owner : Conn} {idx : Nat} (same : Matches pHandle owner)
      (has : area.HasAt cfg owner iTable idx)
      (ends : mode = .trans ∨ (area.pElement idx).eLock = .read) :
      UnlockOutcome cfg area pHandle iTable mode
        (removeSlot tableClass cfg.nElement area (home tableClass area.pElement idx) idx)
  /-- An entry stays and is no longer in use. -/
  | reset {owner : Conn} {idx : Nat} (same : Matches pHandle owner)
      (has : area.HasAt cfg owner iTable idx)
      (stays : ¬ (mode = .trans ∨ (area.pElement idx).eLock = .read)) :
      UnlockOutcome cfg area pHandle iTable mode ⟨area.count, update area.pElement idx
        { area.pElement idx with inUse := false }⟩

/-- The target of an unlock is a matching connection's entry. -/
theorem Lawful.isTarget_iff (lawful : area.Lawful cfg) {pHandle : Handle}
    (bound : idx < cfg.nElement) (valid : tableClass.xElemIsValid (area.pElement idx) = true) :
    tableClass.xElemIsTarget (area.pElement idx) (tablelockTarget pHandle iTable.1) = true ↔
      ∃ owner, Matches pHandle owner ∧ area.HasAt cfg owner iTable idx := by
  have named := lawful.named idx bound (tableClass_valid_iff.1 valid)
  simp only [tableClass, tablelockTarget, decide_eq_true_eq, named, false_or]
  constructor
  · rintro ⟨table, owner, pid⟩
    exact ⟨⟨⟨_, _⟩, named⟩, ⟨owner, pid⟩, bound, Prod.ext table rfl⟩
  · rintro ⟨owner, ⟨sameOwner, samePid⟩, has⟩
    have handle := has.heldBy
    refine ⟨has.iTable_eq, ?_, ?_⟩
    · rw [handle.2]
      exact sameOwner
    · rw [handle.1]
      exact samePid

/-- Every unlock has one of the outcomes. -/
theorem Lawful.unlockTable_outcome (lawful : area.Lawful cfg) (pHandle : Handle)
    (iTable : RootPage) (mode : UnlockMode) :
    UnlockOutcome cfg area pHandle iTable mode
      (sqlite3rowlockIpcUnlockTableCore cfg pHandle area iTable.1 mode) := by
  have spec := rowlockIpcSearch_spec tableClass area.pElement (tablelockTarget pHandle iTable.1)
    (cfg.hash_lt iTable.1)
  unfold sqlite3rowlockIpcUnlockTableCore
  by_cases used : tableClass.xElemIsValid (area.pElement (cfg.xCalcHash iTable.1)) = true
  · simp only [used, if_true]
    cases outcome : rowlockIpcSearch tableClass cfg.nElement area.pElement
        (tablelockTarget pHandle iTable.1) (cfg.xCalcHash iTable.1) with
    | found idx =>
      rw [outcome] at spec
      obtain ⟨bound, valid, hit⟩ := spec
      obtain ⟨owner, same, has⟩ := (lawful.isTarget_iff bound valid).1 hit
      dsimp only
      by_cases ends : mode = .trans ∨ (area.pElement idx).eLock = .read
      · rw [if_pos ends, ← lawful.hash_eq has]
        exact .removed same has ends
      · rw [if_neg ends]
        exact .reset same has ends
    | free stop =>
      rw [outcome] at spec
      obtain ⟨stopBound, vacant, passed⟩ := spec
      refine .absent fun owner idx same has => ?_
      have near := lawful.before_vacant has.1 has.iTable_eq stopBound vacant
      have missed := (passed idx has.1 near).2
      rw [(lawful.isTarget_iff has.1 has.valid).2 ⟨owner, same, has⟩] at missed
      cases missed
    | full =>
      rw [outcome] at spec
      obtain ⟨j, bound, vacant⟩ := lawful.ring.vacancy
      rw [(spec j bound).1] at vacant
      cases vacant
  · simp only [used]
    refine .absent fun owner idx _ has => ?_
    have near := lawful.before_vacant has.1 has.iTable_eq (cfg.hash_lt iTable.1)
      (Bool.eq_false_iff.2 used)
    rw [(dist_eq_zero (cfg.hash_lt _) (cfg.hash_lt _)).2 rfl] at near
    omega

/-- An unlock keeps the area lawful. -/
theorem UnlockOutcome.lawful {area' : TableArea} {pHandle : Handle} {mode : UnlockMode}
    (outcome : UnlockOutcome cfg area pHandle iTable mode area') (lawful : area.Lawful cfg) :
    area'.Lawful cfg := by
  cases outcome with
  | absent => exact lawful
  | removed same has => exact lawful.remove has
  | reset same has => exact lawful.overwrite has has.2 (lawful.hash_eq has)

end TableArea

/-- What single unlocks keep, a release keeps. -/
theorem unlockTablesProcCore_induct {cfg : TableConfig} {area : TableArea} {P : TableArea → Prop}
    (pHandle : Handle) (pid : Nat) (mode : UnlockMode)
    (step : ∀ (area : TableArea) (iTable : RootPage), P area →
      P (sqlite3rowlockIpcUnlockTableCore cfg pHandle area iTable.1 mode)) (holds : P area) :
    P (sqlite3rowlockIpcUnlockTablesProcCore cfg pHandle pid mode area) := by
  have slot : ∀ (idx fuel : Nat) (area : TableArea), P area →
      P (tableSlotLoop cfg pHandle pid mode idx fuel area) := by
    intro idx fuel
    induction fuel with
    | zero => exact fun area holds => holds
    | succ fuel ih =>
      intro area holds
      unfold tableSlotLoop
      dsimp only
      split_ifs with here done
      · exact step area ⟨_, tableClass_valid_iff.1 here.1⟩ holds
      · exact ih _ (step area ⟨_, tableClass_valid_iff.1 here.1⟩ holds)
      · exact holds
  exact LockArea.unlockProcCore_induct (fun idx area => slot idx cfg.nElement area) holds

end SQLumDash.Ipc
