import SQLumDash.Commit.ExclusiveLocks

/-!
# Setting the table locks back

The undo of a failed commit calls the lock function with level and mode exchanged. It asks for the
write lock, in the mode whose number is the previous level: only a table on which the write lock was
held gets its level back.
-/

namespace SQLumDash.Commit

open Ipc TableArea
open TableLock (write)

variable {Key Data : Type} {cfg : TableConfig} {conn : Conn} {faults : LockFaults}
  {tables : List (TransTable Key Data)} {area area' area'' : TableArea} {target : RootPage}

/-- The area after a request of the connection. -/
def request (cfg : TableConfig) (conn : Conn) (area : TableArea) (iTable : RootPage)
    (eLock : TableLock) (mode : LockMode) : TableArea :=
  (sqlite3rowlockIpcLockTable cfg conn.1 area iTable.1 eLock mode).2.1

/-- What requests for other tables leave as it is. -/
structure Beside (cfg : TableConfig) (conn : Conn) (target : RootPage) (area area' : TableArea) :
    Prop where
  lawful : area'.Lawful cfg
  level : ∀ other, area'.level cfg other target = area.level cfg other target
  unopposed : ∀ eLock mode, area'.Unopposed cfg conn target eLock mode ↔
    area.Unopposed cfg conn target eLock mode
  entry : (∃ idx, area.HasAt cfg conn target idx) → ∃ idx, area'.HasAt cfg conn target idx

/-- Nothing happened. -/
theorem Beside.refl (lawful : area.Lawful cfg) : Beside cfg conn target area area :=
  ⟨lawful, fun _ => rfl, fun _ _ => Iff.rfl, id⟩

/-- One after another. -/
theorem Beside.trans (first : Beside cfg conn target area area')
    (second : Beside cfg conn target area' area'') : Beside cfg conn target area area'' :=
  ⟨second.lawful, fun other => (second.level other).trans (first.level other),
    fun eLock mode => (second.unopposed eLock mode).trans (first.unopposed eLock mode),
    fun present => second.entry (first.entry present)⟩

/-- A request for another table. -/
theorem beside_request (conn : Conn) (lawful : area.Lawful cfg) {iTable : RootPage}
    (apart : iTable ≠ target) (eLock : TableLock) (mode : LockMode) :
    Beside cfg conn target area (request cfg conn area iTable eLock mode) := by
  have outcome := lawful.lockTable_outcome conn iTable eLock mode
  refine ⟨outcome.lawful lawful, fun other => ?_, fun _ _ => outcome.unopposed_iff lawful, ?_⟩
  · exact outcome.level_frame lawful fun same => apart same.2.symm
  · rintro ⟨idx, has⟩
    exact outcome.hasAt_kept has

/-- What requests for its tables keep, the loop keeps. -/
theorem loop_induct {P : TableArea → Prop} (conn : Conn) (faults : LockFaults)
    (step : ∀ area, ∀ table ∈ tables, P area →
      P (request cfg conn area table.iTable .exclsv .commit)) :
    ∀ {area : TableArea}, P area → P (lockTablesLoop cfg conn faults tables area).2.1 := by
  induction tables with
  | nil => exact fun holds => holds
  | cons table rest ih =>
    intro area holds
    have later := @ih fun area each member => step area each (List.mem_cons_of_mem _ member)
    unfold lockTablesLoop
    cases inspect faults table with
    | error => exact holds
    | ok modified =>
      cases modified with
      | false => exact later holds
      | true =>
        have here := step area table List.mem_cons_self holds
        dsimp only
        split_ifs
        · exact later here
        · exact here

/-- What the calls of the undo keep, the undo keeps. -/
theorem undo_induct {P : TableArea → Prop} (conn : Conn) (undos : List (RootPage × TableLock))
    (step : ∀ area, ∀ undo ∈ undos, P area → P (undoLock cfg conn area undo)) :
    ∀ {area : TableArea}, P area → P (undos.foldl (undoLock cfg conn) area) := by
  induction undos with
  | nil => exact fun holds => holds
  | cons undo rest ih =>
    exact fun holds => ih (fun area each member => step area each (List.mem_cons_of_mem _ member))
      (step _ undo List.mem_cons_self holds)

/-- The loop makes requests for its own tables only. -/
theorem beside_loop (conn : Conn) (faults : LockFaults)
    (apart : ∀ table ∈ tables, table.iTable ≠ target) (lawful : area.Lawful cfg) :
    Beside cfg conn target area (lockTablesLoop cfg conn faults tables area).2.1 :=
  loop_induct conn faults (fun _ table member reached => reached.trans
    (beside_request conn reached.lawful (apart table member) .exclsv .commit)) (.refl lawful)

/-- The undo makes requests for its own tables only. -/
theorem beside_undo (conn : Conn) (undos : List (RootPage × TableLock))
    (apart : ∀ undo ∈ undos, undo.1 ≠ target) (lawful : area.Lawful cfg) :
    Beside cfg conn target area (undos.foldl (undoLock cfg conn) area) :=
  undo_induct conn undos (fun _ undo member reached => reached.trans
    (beside_request conn reached.lawful (apart undo member) _ _)) (.refl lawful)

/-- The levels of the other connections are as before. -/
structure OthersKept (cfg : TableConfig) (conn : Conn) (area area' : TableArea) : Prop where
  lawful : area'.Lawful cfg
  level : ∀ other iTable, other ≠ conn → area'.level cfg other iTable = area.level cfg other iTable

/-- A request of the connection. -/
theorem OthersKept.request (kept : OthersKept cfg conn area area') (iTable : RootPage)
    (eLock : TableLock) (mode : LockMode) :
    OthersKept cfg conn area (request cfg conn area' iTable eLock mode) := by
  have outcome := kept.lawful.lockTable_outcome conn iTable eLock mode
  refine ⟨outcome.lawful kept.lawful, fun other target apart => ?_⟩
  exact (outcome.level_frame kept.lawful fun same => apart same.1).trans
    (kept.level other target apart)

/-- Requests for other tables do not see the undo. -/
theorem agrees_undo (conn : Conn) (undos : List (RootPage × TableLock))
    (apart : ∀ undo ∈ undos, undo.1 ≠ target) :
    ∀ {area : TableArea}, area.Lawful cfg →
      (∀ undo ∈ undos, ∃ idx, area.HasAt cfg conn undo.1 idx) →
      Agrees area (undos.foldl (undoLock cfg conn) area) target := by
  induction undos with
  | nil => exact fun _ _ => .refl _ _
  | cons undo rest ih =>
    intro area lawful entries
    obtain ⟨idx, has⟩ := entries undo List.mem_cons_self
    have outcome := lawful.lockTable_outcome conn undo.1 (.ofNumber modeLockForce)
      (.ofNumber undo.2.level)
    have here := outcome.agrees has (apart undo List.mem_cons_self).symm
    refine here.trans (ih (fun each member => apart each (List.mem_cons_of_mem _ member))
      (outcome.lawful lawful) fun each member => ?_)
    obtain ⟨slot, present⟩ := entries each (List.mem_cons_of_mem _ member)
    exact outcome.hasAt_kept present

/-- The level after an exclusive lock is set back. -/
theorem undoLock_exclsv {prev : TableLock} (lawful : area.Lawful cfg)
    (exclusive : area.level cfg conn target = .exclsv)
    (unopposed : prev = .write → area.Unopposed cfg conn target .write .force) :
    (undoLock cfg conn area (target, prev)).level cfg conn target =
      if prev = .write then .write else .exclsv := by
  obtain ⟨idx, has⟩ := hasAt_of_level (by rw [exclusive]; decide)
  have outcome := lawful.lockTable_outcome conn target (.ofNumber modeLockForce)
    (.ofNumber prev.level)
  unfold undoLock
  by_cases wrote : prev = .write
  · subst wrote
    rw [if_pos rfl]
    exact outcome.level_forced lawful (outcome.granted_forced (unopposed rfl) has) has
  · rw [if_neg wrote]
    have requested : LockMode.ofNumber prev.level ≠ .force := by
      cases prev <;> first | exact absurd rfl wrote | decide
    by_cases granted : (sqlite3rowlockIpcLockTable cfg conn.1 area target.1
        (.ofNumber modeLockForce) (.ofNumber prev.level)).1 = .ok
    · rw [outcome.level_granted lawful requested granted, exclusive, if_pos (by decide)]
    · rw [outcome.unchanged granted, exclusive]

/-- The level the undo leaves on a table whose request failed. -/
theorem undoLock_failed (lawful : area.Lawful cfg) :
    (undoLock cfg conn area (target, .notLocked)).level cfg conn target =
        area.level cfg conn target ↔
      ((sqlite3rowlockIpcLockTable cfg conn.1 area target.1 .write .normal).1 = .ok →
        write.level ≤ (area.level cfg conn target).level) := by
  have outcome := lawful.lockTable_outcome conn target .write .normal
  change TableArea.level cfg
    (sqlite3rowlockIpcLockTable cfg conn.1 area target.1 .write .normal).2.1 conn target = _ ↔ _
  by_cases granted : (sqlite3rowlockIpcLockTable cfg conn.1 area target.1 .write .normal).1 = .ok
  · rw [outcome.level_granted lawful (by decide) granted]
    by_cases enough : write.level ≤ (area.level cfg conn target).level
    · simp [enough]
    · rw [if_neg enough]
      refine ⟨fun same => absurd ?_ enough, fun sufficient => absurd (sufficient granted) enough⟩
      rw [← same]
  · rw [outcome.unchanged granted]
    simp [granted]

variable {result : Rc × TableArea × Option TableLock}

/-- What is remembered gives back the level exactly if it was the write or the exclusive lock. -/
theorem granted_prev (outcome : area.LockOutcome cfg conn target .exclsv .commit result)
    (lawful : area.Lawful cfg) (granted : result.1 = .ok) :
    (result.2.2.getD .notLocked = .write → area.Unopposed cfg conn target .exclsv .commit) ∧
      ((if result.2.2.getD .notLocked = .write then write else .exclsv) =
          area.level cfg conn target ↔
        area.level cfg conn target = .write ∨ area.level cfg conn target = .exclsv) := by
  cases outcome with
  | @held idx has enough =>
    refine ⟨(fun wrote => nomatch wrote), ?_⟩
    rw [lawful.level_eq has]
    cases level : (area.pElement idx).eLock <;> rw [level] at enough <;>
      first | exact absurd enough (by decide) | simp
  | refused | nomem => cases granted
  | force _ forced => cases forced
  | @upgraded idx mine room unopposed =>
    refine ⟨fun _ => unopposed, ?_⟩
    have lower := mine.2.1
    rw [lawful.level_eq mine.1]
    cases level : (area.pElement idx).eLock <;> rw [level] at lower <;>
      first | exact absurd lower (by decide) | simp
  | added bound vacant path absent room unopposed =>
    refine ⟨fun _ => unopposed, ?_⟩
    rw [level_absent absent]
    split_ifs <;> decide

/-- Setting back is unopposed where the lock was. -/
theorem unopposed_force (normal : target.1 ≠ schemaRoot)
    (unopposed : area.Unopposed cfg conn target .exclsv .commit) :
    area.Unopposed cfg conn target .write .force := by
  intro j bound table foreign refuses
  apply unopposed j bound table foreign
  unfold TableElement.refuses at refuses ⊢
  rw [table, if_neg normal] at refuses ⊢
  simp only [reduceCtorEq, false_and, or_false] at refuses
  exact Or.inl refuses

/-- The loop remembers its own tables. -/
theorem loop_undos :
    ∀ {area : TableArea}, ∀ undo ∈ (lockTablesLoop cfg conn faults tables area).2.2,
      ∃ table ∈ tables, undo.1 = table.iTable := by
  induction tables with
  | nil => exact fun undo member => nomatch member
  | cons table rest ih =>
    intro area undo member
    unfold lockTablesLoop at member
    have later : ∀ {area : TableArea},
        undo ∈ (lockTablesLoop cfg conn faults rest area).2.2 →
          ∃ each ∈ table :: rest, undo.1 = each.iTable := by
      intro area member
      obtain ⟨each, inside, same⟩ := ih undo member
      exact ⟨each, List.mem_cons_of_mem _ inside, same⟩
    cases inspected : inspect faults table with
    | error => simp [inspected] at member
    | ok modified =>
      rw [inspected] at member
      cases modified with
      | false => exact later member
      | true =>
        dsimp only at member
        split_ifs at member
        · rcases List.mem_cons.1 member with rfl | inside
          · exact ⟨table, List.mem_cons_self, rfl⟩
          · exact later inside
        · rw [List.mem_singleton.1 member]
          exact ⟨table, List.mem_cons_self, rfl⟩

/-- Up to the first failure, every modified table whose request is granted has the write or the
exclusive lock; and if a request fails, the write lock is there already or would not be granted
either. -/
def Restorable (cfg : TableConfig) (conn : Conn) (faults : LockFaults) (area : TableArea) :
    List (TransTable Key Data) → Prop
  | [] => True
  | table :: rest =>
    match inspect faults table with
    | .error _ => True
    | .ok false => Restorable cfg conn faults area rest
    | .ok true =>
      if (sqlite3rowlockIpcLockTable cfg conn.1 area table.iTable.1 .exclsv .commit).1 = .ok then
        (area.level cfg conn table.iTable = .write ∨ area.level cfg conn table.iTable = .exclsv) ∧
          Restorable cfg conn faults area rest
      else
        (sqlite3rowlockIpcLockTable cfg conn.1 area table.iTable.1 .write .normal).1 = .ok →
          write.level ≤ (area.level cfg conn table.iTable).level

/-- Only these tables matter. -/
theorem restorable_congr (agrees : ∀ table ∈ tables, Agrees area area' table.iTable) :
    Restorable cfg conn faults area' tables ↔ Restorable cfg conn faults area tables := by
  induction tables with
  | nil => exact Iff.rfl
  | cons table rest ih =>
    have here := agrees table List.mem_cons_self
    have later := ih fun each member => agrees each (List.mem_cons_of_mem _ member)
    unfold Restorable
    rw [here.answer, here.answer, here.level_eq, later]

/-- The level of a granted table after loop and undo. -/
theorem undo_granted_level (faults : LockFaults) {prev : TableLock}
    {earlier : List (RootPage × TableLock)}
    (others : ∀ each ∈ tables, each.iTable ≠ target) (lawful : area.Lawful cfg)
    (own : area.level cfg conn target = .exclsv)
    (unopposed : prev = .write → area.Unopposed cfg conn target .write .force)
    (apart : ∀ undo ∈ earlier, undo.1 ≠ target) :
    let loop := lockTablesLoop cfg conn faults tables area
    ((earlier ++ (target, prev) :: loop.2.2).foldl (undoLock cfg conn) loop.2.1).level cfg conn
      target = if prev = .write then .write else .exclsv := by
  have loop := beside_loop conn faults others lawful
  have before := loop.trans (beside_undo conn earlier apart loop.lawful)
  dsimp only
  rw [List.foldl_append, List.foldl_cons]
  generalize earlier.foldl (undoLock cfg conn)
    (lockTablesLoop cfg conn faults tables area).2.1 = reached at before
  have undone := undoLock_exclsv before.lawful ((before.level conn).trans own)
    fun wrote => (before.unopposed _ _).2 (unopposed wrote)
  have outcome := before.lawful.lockTable_outcome conn target (.ofNumber modeLockForce)
    (.ofNumber prev.level)
  have elsewhere : ∀ undo ∈ (lockTablesLoop cfg conn faults tables area).2.2,
      undo.1 ≠ target := by
    intro undo listed
    obtain ⟨each, inside, same⟩ := loop_undos undo listed
    rw [same]
    exact others each inside
  have after := beside_undo conn _ elsewhere (outcome.lawful before.lawful)
  exact (after.level conn).trans undone

/-- The tables have the levels they had before. -/
def Restored (cfg : TableConfig) (conn : Conn) (area area' : TableArea)
    (tables : List (TransTable Key Data)) : Prop :=
  ∀ table ∈ tables, area'.level cfg conn table.iTable = area.level cfg conn table.iTable

/-- The undo also covers other tables with entries. -/
structure Covered (cfg : TableConfig) (conn : Conn) (area : TableArea)
    (earlier : List (RootPage × TableLock)) (tables : List (TransTable Key Data)) : Prop where
  entries : ∀ undo ∈ earlier, ∃ idx, area.HasAt cfg conn undo.1 idx
  apart : ∀ undo ∈ earlier, ∀ table ∈ tables, undo.1 ≠ table.iTable

section Undo

variable {table : TransTable Key Data} {rest : List (TransTable Key Data)}
  {earlier : List (RootPage × TableLock)}

section

variable (covered : Covered cfg conn area earlier (table :: rest))

include covered

/-- The present table is another one. -/
theorem Covered.here : ∀ undo ∈ earlier, undo.1 ≠ table.iTable :=
  fun undo listed => covered.apart undo listed table List.mem_cons_self

/-- The rest of the tables. -/
theorem Covered.later : Covered cfg conn area earlier rest :=
  ⟨covered.entries, fun undo listed each inside =>
    covered.apart undo listed each (List.mem_cons_of_mem _ inside)⟩

/-- The undo covers a granted table as well. -/
theorem Covered.granted (others : ∀ each ∈ rest, each.iTable ≠ table.iTable)
    (outcome : area.LockOutcome cfg conn table.iTable .exclsv .commit result)
    (own : result.2.1.level cfg conn table.iTable = .exclsv) :
    Covered cfg conn result.2.1 (earlier ++ [(table.iTable, result.2.2.getD .notLocked)]) rest := by
  constructor
  · intro undo listed
    rcases List.mem_append.1 listed with before | this
    · obtain ⟨idx, has⟩ := covered.entries undo before
      exact outcome.hasAt_kept has
    · rw [List.mem_singleton.1 this]
      exact hasAt_of_level (by rw [own]; decide)
  · intro undo listed each inside
    rcases List.mem_append.1 listed with before | this
    · exact covered.later.apart undo before each inside
    · rw [List.mem_singleton.1 this]
      exact (others each inside).symm

end

/-- Setting back other tables leaves the levels as they are. -/
theorem Covered.restored (covered : Covered cfg conn area earlier tables)
    (lawful : area.Lawful cfg) :
    Restored cfg conn area (earlier.foldl (undoLock cfg conn) area) tables :=
  fun each member => (beside_undo conn earlier
    (fun undo listed => covered.apart undo listed each member) lawful).level conn

/-- The level of a table that is passed over. -/
theorem passed_level (faults : LockFaults) (lawful : area.Lawful cfg)
    (others : ∀ each ∈ rest, each.iTable ≠ table.iTable)
    (covered : Covered cfg conn area earlier (table :: rest)) :
    let loop := lockTablesLoop cfg conn faults rest area
    ((earlier ++ loop.2.2).foldl (undoLock cfg conn) loop.2.1).level cfg conn table.iTable =
      area.level cfg conn table.iTable := by
  have loop := beside_loop conn faults others lawful
  refine (loop.trans (beside_undo conn _ (fun undo listed => ?_) loop.lawful)).level conn
  rcases List.mem_append.1 listed with before | after
  · exact covered.here undo before
  · obtain ⟨each, inside, same⟩ := loop_undos undo after
    rw [same]
    exact others each inside

section

variable (lawful : area.Lawful cfg) (others : ∀ each ∈ rest, each.iTable ≠ table.iTable)

include lawful others

/-- A granted request needs the write or the exclusive lock. -/
theorem restored_granted {final : TableArea}
    (outcome : area.LockOutcome cfg conn table.iTable .exclsv .commit result)
    (answer : result.1 = .ok)
    (here : final.level cfg conn table.iTable =
      if result.2.2.getD .notLocked = .write then .write else .exclsv)
    (later : Restored cfg conn result.2.1 final rest ↔ Restorable cfg conn faults result.2.1 rest) :
    Restored cfg conn area final (table :: rest) ↔
      (area.level cfg conn table.iTable = .write ∨ area.level cfg conn table.iTable = .exclsv) ∧
        Restorable cfg conn faults area rest := by
  have levels := (granted_prev outcome lawful answer).2
  have frame : Restored cfg conn area final rest ↔ Restored cfg conn result.2.1 final rest := by
    refine forall₂_congr fun each inside => ?_
    rw [outcome.level_frame lawful fun same : conn = conn ∧ each.iTable = table.iTable =>
      others each inside same.2]
  have whole : Restored cfg conn area final (table :: rest) ↔
      final.level cfg conn table.iTable = area.level cfg conn table.iTable ∧
        Restored cfg conn area final rest := List.forall_mem_cons
  rw [whole, here, levels, frame, later]
  refine and_congr_right fun level => ?_
  obtain ⟨idx, has⟩ : ∃ idx, area.HasAt cfg conn table.iTable idx :=
    hasAt_of_level (by rcases level with wrote | excl <;> simp [*])
  exact restorable_congr fun each inside => outcome.agrees has (others each inside)

/-- A refused request, taken for one that locked nothing. -/
theorem restored_refused (covered : Covered cfg conn area earlier (table :: rest)) :
    Restored cfg conn area (undoLock cfg conn (earlier.foldl (undoLock cfg conn) area)
        (table.iTable, .notLocked)) (table :: rest) ↔
      ((sqlite3rowlockIpcLockTable cfg conn.1 area table.iTable.1 .write .normal).1 = .ok →
        write.level ≤ (area.level cfg conn table.iTable).level) := by
  have before : Beside cfg conn table.iTable area
      (earlier.foldl (undoLock cfg conn) area) := beside_undo conn earlier covered.here lawful
  have same := agrees_undo conn earlier covered.here lawful covered.entries
  have here : (undoLock cfg conn (earlier.foldl (undoLock cfg conn) area)
      (table.iTable, .notLocked)).level cfg conn table.iTable = _ ↔ _ :=
    undoLock_failed before.lawful
  rw [before.level conn, same.answer] at here
  have elsewhere : Restored cfg conn area (undoLock cfg conn
      (earlier.foldl (undoLock cfg conn) area) (table.iTable, .notLocked)) rest := by
    intro each inside
    have last := beside_request conn before.lawful (others each inside).symm
      (.ofNumber modeLockForce) (.ofNumber 0)
    exact (last.level conn).trans (covered.later.restored lawful each inside)
  rw [← here]
  exact List.forall_mem_cons.trans (and_iff_left elsewhere)

end

end Undo

/-- After a failed loop and the undo, every table has its level exactly under the condition. -/
theorem loop_restores (distinct : (tables.map TransTable.iTable).Nodup) :
    ∀ {area : TableArea} {earlier : List (RootPage × TableLock)}, area.Lawful cfg →
      Covered cfg conn area earlier tables →
      (lockTablesLoop cfg conn faults tables area).1 ≠ .ok →
      let loop := lockTablesLoop cfg conn faults tables area
      Restored cfg conn area ((earlier ++ loop.2.2).foldl (undoLock cfg conn) loop.2.1) tables ↔
        Restorable cfg conn faults area tables := by
  induction tables with
  | nil => exact fun _ _ failed => absurd rfl failed
  | cons table rest ih =>
    intro area earlier lawful covered failed
    obtain ⟨fresh, distinct⟩ := List.nodup_cons.1 distinct
    have others : ∀ each ∈ rest, each.iTable ≠ table.iTable := fun each member same =>
      fresh (List.mem_map.2 ⟨each, member, same⟩)
    have passed := passed_level faults lawful others covered
    unfold lockTablesLoop at failed ⊢
    unfold Restorable
    cases inspected : inspect faults table with
    | error failure =>
      simp only [List.append_nil, iff_true]
      exact covered.restored lawful
    | ok modified =>
      cases modified with
      | false =>
        simp only [inspected] at failed ⊢
        have later := ih distinct lawful covered.later failed
        dsimp only at later
        rw [← later]
        exact List.forall_mem_cons.trans (and_iff_right passed)
      | true =>
        simp only [inspected] at failed ⊢
        have outcome := lawful.lockTable_outcome conn table.iTable .exclsv .commit
        by_cases answer : (sqlite3rowlockIpcLockTable cfg conn.1 area table.iTable.1 .exclsv
            .commit).1 = .ok
        · simp only [answer, if_true] at failed ⊢
          have own := outcome.level_granted lawful (by decide) answer
          rw [level_exclsv] at own
          have between := outcome.lawful lawful
          have unopposed := fun wrote => (outcome.unopposed_iff lawful).2
            (unopposed_force table.notSchema ((granted_prev outcome lawful answer).1 wrote))
          have here := undo_granted_level faults others between own unopposed covered.here
          have later := ih distinct between (covered.granted others outcome own) failed
          simp only [List.append_assoc, List.cons_append, List.nil_append] at later
          exact restored_granted lawful others outcome answer here later
        · simp only [answer, if_false, outcome.unchanged answer, List.foldl_append,
            List.foldl_cons, List.foldl_nil]
          exact restored_refused lawful others covered

/-- A request for what is held changes nothing. -/
theorem request_sufficient {mode : LockMode} (lawful : area.Lawful cfg) (requested : mode ≠ .force)
    (enough : write.level ≤ (area.level cfg conn target).level) :
    sqlite3rowlockIpcLockTable cfg conn.1 area target.1 .write mode =
      ((sqlite3rowlockIpcLockTable cfg conn.1 area target.1 .write mode).1, area, none) := by
  have outcome := lawful.lockTable_outcome conn target .write mode
  generalize sqlite3rowlockIpcLockTable cfg conn.1 area target.1 .write mode = result at outcome
  cases outcome with
  | held | refused | nomem => rfl
  | force _ forced => exact absurd forced requested
  | upgraded mine =>
    have lower := mine.2.1
    rw [lawful.level_eq mine.1] at enough
    omega
  | added bound vacant path absent =>
    rw [level_absent absent] at enough
    cases enough

/-- The undo leaves a write lock. -/
theorem undoLock_write {prev : TableLock} (lawful : area.Lawful cfg)
    (wrote : area.level cfg conn target = .write) :
    (undoLock cfg conn area (target, prev)).level cfg conn target = .write := by
  have outcome := lawful.lockTable_outcome conn target (.ofNumber modeLockForce)
    (.ofNumber prev.level)
  obtain ⟨idx, has⟩ := hasAt_of_level (by rw [wrote]; decide)
  unfold undoLock
  by_cases granted : (sqlite3rowlockIpcLockTable cfg conn.1 area target.1
      (.ofNumber modeLockForce) (.ofNumber prev.level)).1 = .ok
  · by_cases forced : LockMode.ofNumber prev.level = .force
    · rw [forced] at outcome granted ⊢
      exact outcome.level_forced lawful granted has
    · rw [outcome.level_granted lawful forced granted, wrote]
      rfl
  · rw [outcome.unchanged granted, wrote]

/-- The commit failed before it had locked the schema table; or the write lock on the schema table
was held before, and the tables can be set back. -/
def Undoable (cfg : TableConfig) (conn : Conn) (faults : LockFaults) (tables : RootPages Key Data)
    (area : TableArea) : Prop :=
  faults.pCur = true ∨ (lockMaster cfg conn area).1 ≠ .ok ∨
    write.level ≤ (area.level cfg conn schemaTable).level ∧
      (faults.arrays = true ∨ Restorable cfg conn faults area tables.1)

section

variable {tables : RootPages Key Data}

/-- The area after the loop and the undo of its tables. -/
def setBack (cfg : TableConfig) (conn : Conn) (faults : LockFaults) (tables : RootPages Key Data)
    (area : TableArea) : TableArea :=
  (lockTablesLoop cfg conn faults tables.1 area).2.2.foldl (undoLock cfg conn)
    (lockTablesLoop cfg conn faults tables.1 area).2.1

/-- Loop and undo ask for the transaction's tables only. -/
theorem beside_setBack (conn : Conn) (faults : LockFaults) (lawful : area.Lawful cfg)
    (apart : ∀ table ∈ tables.1, table.iTable ≠ target) :
    Beside cfg conn target area (setBack cfg conn faults tables area) := by
  have loop := beside_loop conn faults apart lawful
  refine loop.trans (beside_undo conn _ (fun undo listed => ?_) loop.lawful)
  obtain ⟨table, member, same⟩ := loop_undos undo listed
  rw [same]
  exact apart table member

/-- The schema table is none of them. -/
theorem not_schemaTable (table : TransTable Key Data) : table.iTable ≠ schemaTable :=
  fun same => table.notSchema (congrArg Subtype.val same)

/-- Loop and undo are requests of one connection. -/
theorem others_setBack (conn : Conn) (faults : LockFaults) (lawful : area.Lawful cfg) :
    OthersKept cfg conn area (setBack cfg conn faults tables area) :=
  undo_induct conn _ (fun _ undo _ reached => reached.request undo.1 _ _)
    (loop_induct conn faults (fun _ table _ reached =>
      reached.request table.iTable .exclsv .commit) ⟨lawful, fun _ _ _ => rfl⟩)

/-- With the schema table write-locked before, the tables decide. -/
theorem setBack_iff (lawful : area.Lawful cfg)
    (failed : (lockTablesLoop cfg conn faults tables.1 area).1 ≠ .ok) :
    (∀ other iTable, (setBack cfg conn faults tables area).level cfg other iTable =
        area.level cfg other iTable) ↔ Restorable cfg conn faults area tables.1 := by
  have nothing : Covered cfg conn area [] tables.1 := ⟨by simp, by simp⟩
  have restored : Restored cfg conn area (setBack cfg conn faults tables area) tables.1 ↔
      Restorable cfg conn faults area tables.1 :=
    loop_restores tables.2 lawful nothing failed
  rw [← restored]
  constructor
  · exact fun all table _ => all conn table.iTable
  · intro all other iTable
    by_cases own : other = conn
    · subst own
      by_cases listed : ∃ table ∈ tables.1, table.iTable = iTable
      · obtain ⟨table, member, rfl⟩ := listed
        exact all table member
      · exact (beside_setBack other faults lawful fun table member same =>
          listed ⟨table, member, same⟩).level other
    · exact (others_setBack conn faults lawful).level other iTable own

/-- A failed commit after the schema table was locked. -/
theorem exclusiveLockTables_undone (alloc : faults.pCur = false) (present : tables.1 ≠ [])
    (master : (lockMaster cfg conn area).1 = .ok)
    (failed : (exclusiveLockTables cfg conn faults tables area).1 ≠ .ok) :
    let locked := (lockMaster cfg conn area).2.1
    let reached := if faults.arrays then locked else setBack cfg conn faults tables locked
    (exclusiveLockTables cfg conn faults tables area).2 =
        undoLock cfg conn reached (schemaTable, (lockMaster cfg conn area).2.2.getD .notLocked) ∧
      (faults.arrays = false → (lockTablesLoop cfg conn faults tables.1 locked).1 ≠ .ok) := by
  have some_ : tables.1.isEmpty = false := by simpa using present
  cases arrays : faults.arrays with
  | true =>
    unfold exclusiveLockTables
    simp [alloc, some_, master, arrays]
  | false =>
    rw [exclusiveLockTables_eq cfg conn alloc present master arrays] at failed ⊢
    by_cases granted : (lockTablesLoop cfg conn faults tables.1 (lockMaster cfg conn area).2.1).1 =
        .ok
    · exact absurd (by simp only [granted, if_true]) failed
    · simp only [granted, if_false, Bool.false_eq_true]
      exact ⟨rfl, fun _ => granted⟩

/-- The tables are set back before the schema table is. -/
theorem beside_schema (conn : Conn) (faults : LockFaults) (tables : RootPages Key Data)
    (lawful : area.Lawful cfg) :
    Beside cfg conn schemaTable area
      (if faults.arrays then area else setBack cfg conn faults tables area) := by
  split_ifs
  · exact .refl lawful
  · exact beside_setBack conn faults lawful fun table _ => not_schemaTable table

/-- One that the commit took stays too. -/
theorem undo_schema_taken (faults : LockFaults) (tables : RootPages Key Data) (prev : TableLock)
    (lawful : area.Lawful cfg)
    (master : (lockMaster cfg conn area).1 = .ok)
    (lower : ¬ write.level ≤ (area.level cfg conn schemaTable).level) :
    let locked := (lockMaster cfg conn area).2.1
    (undoLock cfg conn (if faults.arrays then locked else setBack cfg conn faults tables locked)
      (schemaTable, prev)).level cfg conn schemaTable = .write := by
  have outcome := lawful.lockTable_outcome conn schemaTable .write .commit
  have taken : (lockMaster cfg conn area).2.1.level cfg conn schemaTable = .write := by
    have level := outcome.level_granted lawful (by decide) master
    rwa [if_neg lower] at level
  have reached := beside_schema conn faults tables (outcome.lawful lawful)
  exact undoLock_write reached.lawful ((reached.level conn).trans taken)

/-- The levels after a failed commit are those before it exactly under the condition on the state
before. -/
theorem failed_commit_keeps_levels_iff (cfg : TableConfig) (conn : Conn) (calls : List TableCall)
    (faults : LockFaults) (tables : RootPages Key Data)
    (failed : (exclusiveLockTables cfg conn faults tables (TableArea.after cfg calls)).1 ≠ .ok) :
    (∀ other iTable,
        (exclusiveLockTables cfg conn faults tables (TableArea.after cfg calls)).2.level cfg other
          iTable = (TableArea.after cfg calls).level cfg other iTable) ↔
      Undoable cfg conn faults tables (TableArea.after cfg calls) := by
  have lawful : (TableArea.after cfg calls).Lawful cfg := after_lawful cfg calls
  generalize TableArea.after cfg calls = area at failed lawful ⊢
  cases alloc : faults.pCur with
  | true =>
    have same : (exclusiveLockTables cfg conn faults tables area).2 = area := by
      simp [exclusiveLockTables, alloc]
    simp [same, Undoable, alloc]
  | false =>
    have present : tables.1 ≠ [] := by
      intro none_
      simp [exclusiveLockTables, alloc, none_] at failed
    by_cases master : (lockMaster cfg conn area).1 = .ok
    · obtain ⟨undone, loop⟩ := exclusiveLockTables_undone alloc present master failed
      rw [undone]
      by_cases enough : write.level ≤ (area.level cfg conn schemaTable).level
      · have unchanged : lockMaster cfg conn area = ((lockMaster cfg conn area).1, area, none) :=
          request_sufficient lawful (by decide) enough
        have reached := beside_schema conn faults tables lawful
        rw [unchanged] at loop ⊢
        have request := request_sufficient reached.lawful (by decide : LockMode.normal ≠ .force)
          (by rwa [reached.level conn])
        rw [Option.getD_none, show undoLock .. = _ from congrArg (·.2.1) request]
        cases arrays : faults.arrays with
        | true => simp [Undoable, enough, arrays]
        | false =>
          rw [if_neg (by decide), setBack_iff lawful (loop arrays)]
          simp [Undoable, alloc, master, enough, arrays]
      · have taken := undo_schema_taken faults tables
          ((lockMaster cfg conn area).2.2.getD .notLocked) lawful master enough
        have unrestored : ¬ Undoable cfg conn faults tables area := by
          simp [Undoable, alloc, master, enough]
        refine ⟨fun all => absurd ?_ enough, fun condition => absurd condition unrestored⟩
        rw [← all conn schemaTable, taken]
    · have same : (exclusiveLockTables cfg conn faults tables area).2 = area := by
        have refused := lawful.lockTable_outcome conn schemaTable .write .commit
        simp [exclusiveLockTables, alloc, present, master]
        exact refused.unchanged master
      simp [same, Undoable, master]

end

/-- A commit of A while B writes the table. -/
theorem failed_commit_keeps_levels_busy :
    let cfg := tableConfig 4 (by decide)
    let calls := [.lock connA schemaTable .write .normal, .lock connA tableTwo .write .normal,
      .lock connB tableTwo .write .normal]
    let area := TableArea.after cfg calls
    (exclusiveLockTables cfg connA .none oneInsert area).1 ≠ .ok ∧
      ((∀ other iTable, (exclusiveLockTables cfg connA .none oneInsert area).2.level cfg other
          iTable = area.level cfg other iTable) ↔ Undoable cfg connA .none oneInsert area) :=
  ⟨by decide, failed_commit_keeps_levels_iff (tableConfig 4 (by decide)) connA
    [.lock connA schemaTable .write .normal, .lock connA tableTwo .write .normal,
      .lock connB tableTwo .write .normal] .none oneInsert (by decide)⟩

/-- A commit that another connection's statement refuses leaves a write lock on the schema table. -/
theorem failed_commit_locks_schema :
    let cfg := tableConfig 4 (by decide)
    let area := TableArea.after cfg [.lock connA tableTwo .write .normal,
      .lock connB tableTwo .write .normal]
    let commit := exclusiveLockTables cfg connA .none oneInsert area
    commit.1 = .locked ∧ area.level cfg connA schemaTable = .notLocked ∧
      commit.2.level cfg connA schemaTable = .write := by
  decide

end SQLumDash.Commit
