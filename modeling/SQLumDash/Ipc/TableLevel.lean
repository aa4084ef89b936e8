import SQLumDash.Ipc.TableSpec

/-!
# Levels of table locks

A lock request changes at most the level the requester has on that table. Requests for other tables
are answered as before, as long as no entry is added.
-/

namespace SQLumDash.Ipc

open Probing Function

namespace TableArea

/-- The level a connection has on a table. -/
def level (cfg : TableConfig) (area : TableArea) (conn : Conn) (iTable : RootPage) : TableLock :=
  match (List.range cfg.nElement).find? fun idx => area.HasAt cfg conn iTable idx with
  | some idx => (area.pElement idx).eLock
  | none => .notLocked

variable {cfg : TableConfig} {area : TableArea} {conn other : Conn} {iTable table : RootPage}
  {eLock : TableLock} {mode : LockMode} {idx : Nat} {result : Rc × TableArea × Option TableLock}

/-- The level is that of the entry. -/
theorem Lawful.level_eq (lawful : area.Lawful cfg) (has : area.HasAt cfg conn iTable idx) :
    area.level cfg conn iTable = (area.pElement idx).eLock := by
  unfold level
  cases found : (List.range cfg.nElement).find? fun idx => area.HasAt cfg conn iTable idx with
  | none =>
    have missed := List.find?_eq_none.1 found idx (List.mem_range.2 has.1)
    exact absurd (decide_eq_true has) missed
  | some slot =>
    have hit := List.find?_some found
    have here : area.HasAt cfg conn iTable slot := of_decide_eq_true hit
    rw [lawful.hasAt_unique here has]

/-- Without an entry there is no level. -/
theorem level_absent (absent : ∀ idx, ¬ area.HasAt cfg conn iTable idx) :
    area.level cfg conn iTable = .notLocked := by
  unfold level
  rw [List.find?_eq_none.2 fun idx _ => by simpa using absent idx]

/-- A connection with a level has an entry. -/
theorem hasAt_of_level (held : area.level cfg conn iTable ≠ .notLocked) :
    ∃ idx, area.HasAt cfg conn iTable idx := by
  by_contra absent
  push Not at absent
  exact held (level_absent absent)

section

variable (outcome : area.LockOutcome cfg conn iTable eLock mode result)

include outcome

/-- A request writes no entry for another connection or table. -/
theorem LockOutcome.hasAt_of_hasAt (apart : ¬ (other = conn ∧ table = iTable)) {j : Nat}
    (has : result.2.1.HasAt cfg other table j) : area.HasAt cfg other table j := by
  -- The slot that is written carries the requester's key.
  have written : ∀ {count : Nat} {elem : TableElement} {slot : Nat},
      TableArea.HasAt cfg ⟨count, update area.pElement slot elem⟩ other table j →
      elem.key = (iTable.1, conn.1) → area.HasAt cfg other table j := by
    intro count elem slot has key
    have here : j ≠ slot := by
      rintro rfl
      have same : elem.key = (table.1, other.1) := by
        have at_ := has.2
        change (update area.pElement j elem j).key = _ at at_
        rwa [update_self] at at_
      rw [key] at same
      exact apart ⟨Subtype.ext (congrArg Prod.snd same).symm,
        Subtype.ext (congrArg Prod.fst same).symm⟩
    have kept : update area.pElement slot elem j = area.pElement j :=
      update_of_ne here _ _
    exact ⟨has.1, (congrArg TableElement.key kept).symm.trans has.2⟩
  cases outcome with
  | held | refused | nomem => exact has
  | force own => exact written has own.2
  | upgraded | added => exact written has rfl

/-- A request changes no other level. -/
theorem LockOutcome.level_frame (lawful : area.Lawful cfg)
    (apart : ¬ (other = conn ∧ table = iTable)) :
    result.2.1.level cfg other table = area.level cfg other table := by
  by_cases present : ∃ j, area.HasAt cfg other table j
  · obtain ⟨j, has⟩ := present
    have foreign : ¬ area.HasAt cfg conn iTable j := by
      intro mine
      have same := has.2.symm.trans mine.2
      exact apart ⟨Subtype.ext (congrArg Prod.snd same), Subtype.ext (congrArg Prod.fst same)⟩
    have kept := outcome.frame has.valid foreign
    have has' : result.2.1.HasAt cfg other table j :=
      ⟨has.1, (congrArg TableElement.key kept).trans has.2⟩
    rw [(outcome.lawful lawful).level_eq has', lawful.level_eq has, kept]
  · push Not at present
    rw [level_absent present, level_absent fun j has => present j (outcome.hasAt_of_hasAt apart has)]

/-- A refused request changes nothing. -/
theorem LockOutcome.unchanged (refused : result.1 ≠ .ok) : result.2.1 = area := by
  cases outcome with
  | held | refused | nomem => rfl
  | force | upgraded | added => exact absurd rfl refused

end

/-- The entry a request wrote has the requested level. -/
theorem LockOutcome.level_written {count : Nat}
    (lawful : TableArea.Lawful cfg
      ⟨count, rowlockIpcTableValueSet cfg area.pElement idx conn.1 iTable.1 eLock⟩)
    (bound : idx < cfg.nElement) :
    TableArea.level cfg
      ⟨count, rowlockIpcTableValueSet cfg area.pElement idx conn.1 iTable.1 eLock⟩ conn iTable =
        eLock := by
  have written : rowlockIpcTableValueSet cfg area.pElement idx conn.1 iTable.1 eLock idx =
      ⟨cfg.xCalcHash iTable.1, iTable.1, conn.1.pid, conn.1.owner, eLock, true⟩ :=
    update_self ..
  rw [lawful.level_eq (hasAt_valueSet bound).1]
  exact congrArg TableElement.eLock written

/-- A granted request leaves the higher level. -/
theorem LockOutcome.level_granted (outcome : area.LockOutcome cfg conn iTable eLock mode result)
    (lawful : area.Lawful cfg) (requested : mode ≠ .force) (granted : result.1 = .ok) :
    result.2.1.level cfg conn iTable =
      if eLock.level ≤ (area.level cfg conn iTable).level then area.level cfg conn iTable
      else eLock := by
  have after := outcome.lawful lawful
  cases outcome with
  | held has enough => rw [lawful.level_eq has, if_pos enough]
  | refused | nomem => cases granted
  | force has forced => exact absurd forced requested
  | upgraded mine =>
    rw [LockOutcome.level_written after mine.1.1, lawful.level_eq mine.1,
      if_neg (Nat.not_le.2 mine.2.1)]
  | added bound vacant path absent =>
    rw [LockOutcome.level_written after bound, level_absent absent]
    by_cases nothing : eLock.level ≤ TableLock.notLocked.level
    · rw [if_pos nothing]
      cases eLock <;> simp [TableLock.level] at nothing ⊢
    · rw [if_neg nothing]

/-- A forced request is granted when nobody opposes it. -/
theorem LockOutcome.granted_forced (outcome : area.LockOutcome cfg conn iTable eLock .force result)
    (unopposed : area.Unopposed cfg conn iTable eLock .force)
    (has : area.HasAt cfg conn iTable idx) : result.1 = .ok := by
  cases outcome with
  | held => rfl
  | refused opposed =>
    exact absurd opposed.2.2.2 (unopposed _ opposed.1 opposed.2.1 opposed.2.2.1)
  | nomem full lower => exact absurd rfl (lower idx has).2.2
  | force | upgraded | added => rfl

/-- A granted forced request sets the level. -/
theorem LockOutcome.level_forced (outcome : area.LockOutcome cfg conn iTable eLock .force result)
    (lawful : area.Lawful cfg) (granted : result.1 = .ok) (has : area.HasAt cfg conn iTable idx) :
    result.2.1.level cfg conn iTable = eLock := by
  have after := outcome.lawful lawful
  cases outcome with
  | held _ _ normal => exact absurd rfl normal
  | refused | nomem => cases granted
  | @force slot mine =>
    have written : update area.pElement slot { area.pElement slot with eLock := eLock }
        slot = { area.pElement slot with eLock := eLock } := update_self ..
    have here : TableArea.HasAt cfg ⟨area.count, update area.pElement slot
        { area.pElement slot with eLock := eLock }⟩ conn iTable slot :=
      ⟨mine.1, (congrArg TableElement.key written).trans mine.2⟩
    rw [after.level_eq here]
    exact congrArg TableElement.eLock written
  | upgraded mine => exact absurd rfl mine.2.2
  | added bound vacant path absent => exact absurd has (absent idx)

/-- A forced request for no lock leaves none. -/
theorem LockOutcome.level_forced_zero
    (outcome : area.LockOutcome cfg conn iTable .notLocked .force result)
    (lawful : area.Lawful cfg) (granted : result.1 = .ok)
    (unlocked : area.level cfg conn iTable = .notLocked) :
    result.2.1.level cfg conn iTable = .notLocked := by
  by_cases present : ∃ idx, area.HasAt cfg conn iTable idx
  · obtain ⟨idx, has⟩ := present
    exact outcome.level_forced lawful granted has
  · push Not at present
    have after := outcome.lawful lawful
    cases outcome with
    | held | refused | nomem => exact unlocked
    | force has => exact absurd has (present _)
    | upgraded mine => exact absurd rfl mine.2.2
    | added bound => exact LockOutcome.level_written after bound

/-- A request keeps the entries of everybody. -/
theorem LockOutcome.hasAt_kept (outcome : area.LockOutcome cfg conn iTable eLock mode result)
    {j : Nat} (has : area.HasAt cfg other table j) : ∃ j, result.2.1.HasAt cfg other table j := by
  by_cases mine : area.HasAt cfg conn iTable j
  · have key := mine.2.symm.trans has.2
    obtain rfl : iTable = table := Subtype.ext (congrArg Prod.fst key)
    obtain rfl : conn = other := Subtype.ext (congrArg Prod.snd key)
    cases outcome with
    | held | refused | nomem => exact ⟨j, has⟩
    | @force slot own =>
      have written : update area.pElement slot { area.pElement slot with eLock := eLock }
          slot = { area.pElement slot with eLock := eLock } := update_self ..
      exact ⟨slot, own.1, (congrArg TableElement.key written).trans own.2⟩
    | upgraded own => exact ⟨_, (hasAt_valueSet own.1.1).1⟩
    | added bound => exact ⟨_, (hasAt_valueSet bound).1⟩
  · have kept := outcome.frame has.valid mine
    exact ⟨j, has.1, (congrArg TableElement.key kept).trans has.2⟩

/-- Whether a request is opposed depends on others only. -/
theorem LockOutcome.unopposed_iff (outcome : area.LockOutcome cfg conn iTable eLock mode result)
    (lawful : area.Lawful cfg) {level : TableLock} {how : LockMode} :
    result.2.1.Unopposed cfg conn table level how ↔ area.Unopposed cfg conn table level how := by
  have foreign : ∀ {area' : TableArea} {j}, area'.Lawful cfg → j < cfg.nElement →
      (area'.pElement j).iTable = table.1 → ¬ (area'.pElement j).heldBy conn.1 →
      ∃ other, other ≠ conn ∧ area'.HasAt cfg other table j := by
    intro area' j lawful' bound same apart
    have named := lawful'.named j bound (same ▸ table.2)
    refine ⟨⟨⟨_, _⟩, named⟩, fun mine => apart ?_, bound, Prod.ext same rfl⟩
    rw [TableElement.heldBy_iff, ← mine]
    rfl
  constructor
  · intro unopposed j bound same apart
    obtain ⟨other, distinct, has⟩ := foreign lawful bound same apart
    have kept := outcome.frame has.valid fun mine => apart mine.heldBy
    have passes := unopposed j bound
    rw [kept] at passes
    exact passes same apart
  · intro unopposed j bound same apart
    obtain ⟨other, distinct, has⟩ := foreign (outcome.lawful lawful) bound same apart
    have before := outcome.hasAt_of_hasAt (fun both => distinct both.1) has
    have outside : ¬ area.HasAt cfg conn iTable j := fun mine =>
      distinct (Subtype.ext (congrArg Prod.snd (before.2.symm.trans mine.2)))
    have kept := outcome.frame before.valid outside
    rw [kept] at same apart ⊢
    exact unopposed j bound same apart

/-- A request for this table cannot tell the areas apart. -/
structure Agrees (area area' : TableArea) (iTable : RootPage) : Prop where
  count : area'.count = area.count
  valid : ∀ idx, tableClass.xElemIsValid (area'.pElement idx) =
    tableClass.xElemIsValid (area.pElement idx)
  same : ∀ idx, (area.pElement idx).iTable = iTable.1 ∨ (area'.pElement idx).iTable = iTable.1 →
    area'.pElement idx = area.pElement idx

/-- An area agrees with itself. -/
theorem Agrees.refl (area : TableArea) (iTable : RootPage) : Agrees area area iTable :=
  ⟨rfl, fun _ => rfl, fun _ _ => rfl⟩

/-- Agreement is transitive. -/
theorem Agrees.trans {area' area'' : TableArea} (first : Agrees area area' iTable)
    (second : Agrees area' area'' iTable) : Agrees area area'' iTable := by
  refine ⟨second.count.trans first.count, fun idx => (second.valid idx).trans (first.valid idx),
    fun idx either => ?_⟩
  rcases either with left | right
  · have equal := first.same idx (Or.inl left)
    rw [second.same idx (Or.inl (equal ▸ left)), equal]
  · have equal := second.same idx (Or.inr right)
    rw [equal, first.same idx (Or.inr (equal ▸ right))]

/-- Areas that agree give the same verdicts. -/
theorem Agrees.verdict {area' : TableArea} (agrees : Agrees area area' iTable) (idx : Nat) :
    (area'.pElement idx).verdict conn.1 iTable.1 eLock mode =
      (area.pElement idx).verdict conn.1 iTable.1 eLock mode := by
  by_cases either : (area.pElement idx).iTable = iTable.1 ∨ (area'.pElement idx).iTable = iTable.1
  · rw [agrees.same idx either]
  · push Not at either
    unfold TableElement.verdict
    rw [if_neg either.1, if_neg either.2]

/-- The loop sees only what agrees. -/
theorem lockTableLoop_congr {data data' : Nat → TableElement} {pHandle : Handle} {root : Int}
    (valid : ∀ idx, tableClass.xElemIsValid (data' idx) = tableClass.xElemIsValid (data idx))
    (verdict : ∀ idx, (data' idx).verdict pHandle root eLock mode =
      (data idx).verdict pHandle root eLock mode) (fuel : Nat) :
    ∀ (idx : Nat) (own : Option Nat),
      lockTableLoop cfg data' pHandle root eLock mode fuel idx own =
        lockTableLoop cfg data pHandle root eLock mode fuel idx own := by
  induction fuel with
  | zero => exact fun _ _ => rfl
  | succ fuel ih =>
    intro idx own
    unfold lockTableLoop
    rw [valid idx, verdict idx]
    simp only [ih]

/-- A request is answered alike in areas that agree. -/
theorem Agrees.answer {area' : TableArea} (agrees : Agrees area area' iTable) :
    (sqlite3rowlockIpcLockTable cfg conn.1 area' iTable.1 eLock mode).1 =
      (sqlite3rowlockIpcLockTable cfg conn.1 area iTable.1 eLock mode).1 := by
  unfold sqlite3rowlockIpcLockTable
  rw [lockTableLoop_congr agrees.valid agrees.verdict, agrees.count]
  cases lockTableLoop cfg area.pElement conn.1 iTable.1 eLock mode cfg.nElement
      (cfg.xCalcHash iTable.1) none with
  | stop idx own =>
    split_ifs <;> rfl
  | _ => rfl

/-- Levels on the table agree. -/
theorem Agrees.level_eq {area' : TableArea} (agrees : Agrees area area' iTable) :
    area'.level cfg conn iTable = area.level cfg conn iTable := by
  have at_ : ∀ idx, area'.HasAt cfg conn iTable idx ↔ area.HasAt cfg conn iTable idx := by
    intro idx
    constructor
    · intro has
      have equal := agrees.same idx (Or.inr has.iTable_eq)
      exact ⟨has.1, (congrArg TableElement.key equal).symm.trans has.2⟩
    · intro has
      have equal := agrees.same idx (Or.inl has.iTable_eq)
      exact ⟨has.1, (congrArg TableElement.key equal).trans has.2⟩
  unfold level
  simp only [at_]
  cases found : (List.range cfg.nElement).find? fun idx => area.HasAt cfg conn iTable idx with
  | none => rfl
  | some idx =>
    have hit := List.find?_some found
    have here : area.HasAt cfg conn iTable idx := of_decide_eq_true hit
    dsimp only
    rw [agrees.same idx (Or.inl here.iTable_eq)]

/-- Requests for other tables do not see a request of a connection with an entry. -/
theorem LockOutcome.agrees (outcome : area.LockOutcome cfg conn iTable eLock mode result)
    (has : area.HasAt cfg conn iTable idx) (apart : table ≠ iTable) :
    Agrees area result.2.1 table := by
  have written : ∀ {elem : TableElement} {slot : Nat}, area.HasAt cfg conn iTable slot →
      elem.iTable = iTable.1 →
      Agrees area ⟨area.count, update area.pElement slot elem⟩ table := by
    intro elem slot own root
    refine ⟨rfl, fun j => ?_, fun j either => update_of_ne ?_ _ _⟩
    · by_cases here : j = slot
      · change tableClass.xElemIsValid (update area.pElement slot elem j) = _
        rw [here, update_self, own.valid, tableClass_valid_iff, root]
        exact iTable.2
      · exact congrArg _ (update_of_ne here _ _)
    · rintro rfl
      rcases either with left | right
      · exact apart (Subtype.ext (left.symm.trans own.iTable_eq))
      · change (update area.pElement j elem j).iTable = _ at right
        rw [update_self, root] at right
        exact apart (Subtype.ext right.symm)
  cases outcome with
  | held | refused | nomem => exact .refl _ _
  | force own => exact written own own.iTable_eq
  | upgraded own => exact written own.1 rfl
  | added bound vacant path absent => exact absurd has (absent idx)

end TableArea

end SQLumDash.Ipc
