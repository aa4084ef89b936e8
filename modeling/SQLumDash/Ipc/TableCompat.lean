import SQLumDash.Lib.Run
import SQLumDash.Ipc.TableSpec

/-!
# Which table locks exclude each other

After every sequence of calls: an exclusive lock is met by every other request, unless the
requester's own entry is met first; and, for the requests the engine makes, the levels that stand
side by side.
-/

namespace SQLumDash.Ipc

open Probing Runs

/-- The calls on the table-lock area. -/
inductive TableCall where
  /-- `sqlite3rowlockIpcLockTable` -/
  | lock (conn : Conn) (iTable : RootPage) (eLock : TableLock) (mode : LockMode)
  /-- `sqlite3rowlockIpcUnlockTable` -/
  | unlock (conn : Conn) (iTable : RootPage)
  /-- `sqlite3rowlockIpcUnlockTablesStmtProc` -/
  | stmtEnd (conn : Conn)
  /-- `sqlite3rowlockIpcUnlockTablesProc` -/
  | transEnd (conn : Conn)
  /-- The same for a process that ends, and all its connections. -/
  | procEnd (pid : Nat)

/-- The area after a call. -/
def TableCall.perform (cfg : TableConfig) (area : TableArea) : TableCall → TableArea
  | .lock conn iTable eLock mode =>
    (sqlite3rowlockIpcLockTable cfg conn.1 area iTable.1 eLock mode).2.1
  | .unlock conn iTable => sqlite3rowlockIpcUnlockTableCore cfg conn.1 area iTable.1 .trans
  | .stmtEnd conn => sqlite3rowlockIpcUnlockTablesStmtProc cfg conn.1 area
  | .transEnd conn => sqlite3rowlockIpcUnlockTablesProc cfg conn.1 area
  | .procEnd pid => sqlite3rowlockIpcUnlockTablesProc cfg ⟨pid, 0⟩ area

/-- The area after calls from the initialised one on. -/
def TableArea.after (cfg : TableConfig) (calls : List TableCall) : TableArea :=
  run (TableCall.perform cfg) tableClassInitArea calls

namespace TableArea

variable {cfg : TableConfig} {area : TableArea} {conn other : Conn} {iTable table : RootPage}
  {eLock level : TableLock} {mode : LockMode} {idx : Nat}

/-- What single locks and unlocks keep, every call keeps. -/
theorem perform_induct {P : TableArea → Prop} (call : TableCall)
    (lock : ∀ conn iTable eLock mode, call = .lock conn iTable eLock mode →
      P (sqlite3rowlockIpcLockTable cfg conn.1 area iTable.1 eLock mode).2.1)
    (unlock : ∀ (area : TableArea) (pHandle : Handle) (iTable : RootPage) (mode : UnlockMode),
      P area → P (sqlite3rowlockIpcUnlockTableCore cfg pHandle area iTable.1 mode))
    (holds : P area) : P (call.perform cfg area) := by
  cases call with
  | lock conn iTable eLock mode => exact lock conn iTable eLock mode rfl
  | unlock conn iTable => exact unlock area conn.1 iTable .trans holds
  | stmtEnd conn =>
    exact unlockTablesProcCore_induct conn.1 conn.1.pid .stmt
      (fun area iTable held => unlock area conn.1 iTable .stmt held) holds
  | transEnd conn =>
    exact unlockTablesProcCore_induct conn.1 conn.1.pid .trans
      (fun area iTable held => unlock area conn.1 iTable .trans held) holds
  | procEnd pid =>
    exact unlockTablesProcCore_induct ⟨pid, 0⟩ pid .trans
      (fun area iTable held => unlock area ⟨pid, 0⟩ iTable .trans held) holds

/-- Every call keeps the area lawful. -/
theorem Lawful.perform (lawful : area.Lawful cfg) (call : TableCall) :
    TableArea.Lawful cfg (call.perform cfg area) := by
  refine perform_induct call (fun conn iTable eLock mode _ => ?_)
    (fun area pHandle iTable mode held => ?_) lawful
  · exact (lawful.lockTable_outcome conn iTable eLock mode).lawful lawful
  · exact (held.unlockTable_outcome pHandle iTable mode).lawful held

/-- Every area that calls produce is lawful. -/
theorem after_lawful (cfg : TableConfig) (calls : List TableCall) :
    (TableArea.after cfg calls).Lawful cfg := by
  exact run_invariant (P := TableArea.Lawful cfg)
    (fun area call lawful => Lawful.perform lawful call) calls (init_lawful cfg)

/-- The connection has an entry of this level. -/
def Holds (cfg : TableConfig) (area : TableArea) (conn : Conn) (iTable : RootPage)
    (level : TableLock) : Prop :=
  ∃ idx, area.HasAt cfg conn iTable idx ∧ (area.pElement idx).eLock = level

/-- A request changes at most the requester's level. -/
theorem holds_valueSet {count : Nat}
    (holds : TableArea.Holds cfg
      ⟨count, rowlockIpcTableValueSet cfg area.pElement idx conn.1 iTable.1 eLock⟩ other table level) :
    area.Holds cfg other table level ∨ other = conn ∧ table = iTable ∧ level = eLock := by
  obtain ⟨j, has, rfl⟩ := holds
  by_cases here : j = idx
  · right
    have written : rowlockIpcTableValueSet cfg area.pElement idx conn.1 iTable.1 eLock j =
        ⟨cfg.xCalcHash iTable.1, iTable.1, conn.1.pid, conn.1.owner, eLock, true⟩ := by
      rw [here]
      exact Function.update_self ..
    have key : ((iTable.1, conn.1) : Int × Handle) = (table.1, other.1) :=
      (congrArg TableElement.key written).symm.trans has.2
    exact ⟨Subtype.ext (congrArg Prod.snd key).symm, Subtype.ext (congrArg Prod.fst key).symm,
      congrArg TableElement.eLock written⟩
  · left
    have same : rowlockIpcTableValueSet cfg area.pElement idx conn.1 iTable.1 eLock j =
        area.pElement j := Function.update_of_ne here _ _
    exact ⟨j, ⟨has.1, (congrArg TableElement.key same).symm.trans has.2⟩,
      (congrArg TableElement.eLock same).symm⟩

/-- A level was held before, or was granted. -/
theorem LockOutcome.holds {result : Rc × TableArea × Option TableLock}
    (outcome : area.LockOutcome cfg conn iTable eLock mode result) (requested : mode ≠ .force)
    (holds : result.2.1.Holds cfg other table level) :
    area.Holds cfg other table level ∨
      (other = conn ∧ table = iTable ∧ level = eLock) ∧
        area.Unopposed cfg conn iTable eLock mode := by
  cases outcome with
  | held | refused | nomem => exact Or.inl holds
  | force has forced => exact absurd forced requested
  | upgraded mine room unopposed | added bound vacant path absent room unopposed =>
    exact (holds_valueSet holds).imp_right fun granted => ⟨granted, unopposed⟩

/-- The content of an entry decides who holds what. -/
theorem HasAt.holds_of_content {area' : TableArea} {j : Nat}
    (has : area'.HasAt cfg other table j) (bound : idx < cfg.nElement)
    (same : (area.pElement idx).content = (area'.pElement j).content) :
    area.Holds cfg other table (area'.pElement j).eLock := by
  have key : (area.pElement idx).key = (area'.pElement j).key := congrArg (·.key) same
  have level : (area.pElement idx).eLock = (area'.pElement j).eLock := congrArg (·.eLock) same
  exact ⟨idx, ⟨bound, key.trans has.2⟩, level⟩

/-- A level held after an unlock was held before. -/
theorem UnlockOutcome.holds {area' : TableArea} {pHandle : Handle} {mode : UnlockMode}
    (outcome : area.UnlockOutcome cfg pHandle iTable mode area') (lawful : area.Lawful cfg)
    (holds : area'.Holds cfg other table level) : area.Holds cfg other table level := by
  cases outcome with
  | absent => exact holds
  | removed same has ends =>
    obtain ⟨j, has', rfl⟩ := holds
    obtain ⟨i, bound, source⟩ := lawful.remove_source has has'.1 (has'.iTable_eq ▸ table.2)
    exact has'.holds_of_content bound source
  | reset same has stays =>
    obtain ⟨j, has', rfl⟩ := holds
    exact has'.holds_of_content has'.1 (content_reset j).symm

/-- Two holders after a lock call are one, held it before, or one of them is the caller and
unopposed. -/
theorem LockOutcome.pair {result : Rc × TableArea × Option TableLock} {a b : Conn}
    {first second : TableLock} (outcome : area.LockOutcome cfg conn iTable eLock mode result)
    (requested : mode ≠ .force) (left : result.2.1.Holds cfg a table first)
    (right : result.2.1.Holds cfg b table second) :
    a = b ∨ (area.Holds cfg a table first ∧ area.Holds cfg b table second) ∨
      table = iTable ∧ area.Unopposed cfg conn iTable eLock mode ∧
        ((b = conn ∧ second = eLock ∧ a ≠ conn ∧ area.Holds cfg a iTable first) ∨
          (a = conn ∧ first = eLock ∧ b ≠ conn ∧ area.Holds cfg b iTable second)) := by
  by_cases same : a = b
  · exact .inl same
  refine .inr ?_
  rcases outcome.holds requested left with left | ⟨⟨rfl, rfl, rfl⟩, unopposed⟩
  · rcases outcome.holds requested right with right | ⟨⟨rfl, rfl, rfl⟩, unopposed⟩
    · exact .inl ⟨left, right⟩
    · exact .inr ⟨rfl, unopposed, .inl ⟨rfl, rfl, same, left⟩⟩
  · rcases outcome.holds requested right with right | ⟨⟨rfl, -, -⟩, -⟩
    · exact .inr ⟨rfl, unopposed, .inr ⟨rfl, rfl, Ne.symm same, right⟩⟩
    · exact absurd rfl same

/-- An exclusive lock refuses every request. -/
theorem refusedAt_exclsv (apart : other ≠ conn) (normal : iTable.1 ≠ schemaRoot)
    (has : area.HasAt cfg other iTable idx) (exclusive : (area.pElement idx).eLock = .exclsv) :
    area.RefusedAt cfg conn iTable eLock mode idx := by
  refine ⟨has.1, has.iTable_eq, fun mine => apart ?_, ?_⟩
  · rw [TableElement.heldBy_iff, has.2] at mine
    exact Subtype.ext mine
  · unfold TableElement.refuses
    rw [if_neg (has.iTable_eq ▸ normal)]
    exact Or.inl exclusive

/-- A request is refused exactly when every sufficient entry of the requester lies behind a refusing
one. -/
theorem Lawful.locked_iff (lawful : area.Lawful cfg) (requested : mode ≠ .force)
    (opposed : area.RefusedAt cfg conn iTable eLock mode idx) :
    (sqlite3rowlockIpcLockTable cfg conn.1 area iTable.1 eLock mode).1 = .locked ↔
      ∀ i, area.HasAt cfg conn iTable i → eLock.level ≤ (area.pElement i).eLock.level →
        ∃ k, area.RefusedAt cfg conn iTable eLock mode k ∧
          dist cfg.nElement (cfg.xCalcHash iTable.1) k <
            dist cfg.nElement (cfg.xCalcHash iTable.1) i := by
  have outcome := lawful.lockTable_outcome conn iTable eLock mode
  generalize sqlite3rowlockIpcLockTable cfg conn.1 area iTable.1 eLock mode = result at outcome
  cases outcome with
  | @held i has enough normal own front =>
    refine ⟨(fun locked => nomatch locked), fun behind => ?_⟩
    obtain ⟨k, refusing, before⟩ := behind i has enough
    have passed := ((front k refusing.1 before).2 refusing.2.1).2 refusing.2.2.1
    exact absurd refusing.2.2.2 passed
  | force has forced => exact absurd forced requested
  | @refused k opposed own front =>
    refine ⟨fun _ i has enough => ⟨k, opposed, ?_⟩, fun _ => rfl⟩
    -- An own entry met before the refusal would be of a lower level.
    by_contra later
    have apart : i ≠ k := fun same => opposed.2.2.1 (same ▸ has.heldBy)
    have before : dist cfg.nElement (cfg.xCalcHash iTable.1) i <
        dist cfg.nElement (cfg.xCalcHash iTable.1) k := by
      have distinct : dist cfg.nElement (cfg.xCalcHash iTable.1) i ≠
          dist cfg.nElement (cfg.xCalcHash iTable.1) k := fun same =>
        apart (dist_inj (cfg.hash_lt iTable.1) has.1 opposed.1 same)
      omega
    have lower := (((front i has.1 before).2 has.iTable_eq).1 has.heldBy).2
    omega
  | nomem full lower unopposed | upgraded mine room unopposed
  | added bound vacant path absent room unopposed =>
    exact absurd opposed.2.2.2 (unopposed idx opposed.1 opposed.2.1 opposed.2.2.1)

end TableArea

/-- After any calls, a request on a table on which another connection holds the exclusive lock is
refused exactly when every entry of the requester that suffices for it lies, in the order of the
probing, behind an entry that refuses it. -/
theorem locked_by_exclusive_iff (cfg : TableConfig) (calls : List TableCall) (conn other : Conn)
    (apart : other ≠ conn) (iTable : RootPage) (normal : iTable.1 ≠ schemaRoot) (idx : Nat)
    (has : (TableArea.after cfg calls).HasAt cfg other iTable idx)
    (exclusive : ((TableArea.after cfg calls).pElement idx).eLock = .exclsv) (eLock : TableLock)
    (mode : LockMode) (requested : mode ≠ .force) :
    (sqlite3rowlockIpcLockTable cfg conn.1 (TableArea.after cfg calls) iTable.1 eLock mode).1 =
        .locked ↔
      ∀ i, (TableArea.after cfg calls).HasAt cfg conn iTable i →
        eLock.level ≤ ((TableArea.after cfg calls).pElement i).eLock.level →
        ∃ k, (TableArea.after cfg calls).RefusedAt cfg conn iTable eLock mode k ∧
          dist cfg.nElement (cfg.xCalcHash iTable.1) k <
            dist cfg.nElement (cfg.xCalcHash iTable.1) i := by
  have lawful := TableArea.after_lawful cfg calls
  exact lawful.locked_iff requested (TableArea.refusedAt_exclsv apart normal has exclusive)

/-- A connection without an entry is refused. -/
theorem locked_by_exclusive_newcomer :
    let cfg := tableConfig 4 (by decide)
    let area := TableArea.after cfg [.lock connB tableTwo .exclsv .normal]
    area.HasAt cfg connB tableTwo (cfg.xCalcHash tableTwo.1) ∧
      (area.pElement (cfg.xCalcHash tableTwo.1)).eLock = .exclsv ∧
      ((sqlite3rowlockIpcLockTable cfg connA.1 area tableTwo.1 .read .normal).1 = .locked ↔
        ∀ i, area.HasAt cfg connA tableTwo i →
          TableLock.read.level ≤ (area.pElement i).eLock.level →
          ∃ k, area.RefusedAt cfg connA tableTwo .read .normal k ∧
            dist cfg.nElement (cfg.xCalcHash tableTwo.1) k <
              dist cfg.nElement (cfg.xCalcHash tableTwo.1) i) :=
  ⟨by decide, by decide, locked_by_exclusive_iff (tableConfig 4 (by decide))
    [.lock connB tableTwo .exclsv .normal] connA connB (by decide) tableTwo (by decide)
    ((tableConfig 4 (by decide)).xCalcHash tableTwo.1) (by decide) (by decide) .read .normal
    (by decide)⟩

/-- A writer keeps its lock while another connection takes the exclusive one; its next request meets
its own entry first and is granted. -/
theorem granted_beside_exclusive :
    let cfg := tableConfig 4 (by decide)
    let area := TableArea.after cfg [.lock connA tableTwo .write .normal, .stmtEnd connA,
      .lock connB tableTwo .exclsv .commit]
    (∃ idx < cfg.nElement, area.HasAt cfg connB tableTwo idx ∧
        (area.pElement idx).eLock = .exclsv) ∧
      (sqlite3rowlockIpcLockTable cfg connA.1 area tableTwo.1 .write .normal).1 = .ok := by
  decide

/-- The requests the engine makes: any in the normal mode, but only read and write locks on the
schema table; in the commit mode the exclusive lock on a table the connection may write, or the
write lock on the schema table. -/
def TableCall.Permitted (cfg : TableConfig) (area : TableArea) : TableCall → Prop
  | .lock conn iTable eLock mode =>
    match mode with
    | .normal => iTable.1 = schemaRoot → eLock = .read ∨ eLock = .write
    | .commit =>
      if iTable.1 = schemaRoot then eLock = .write
      else eLock = .exclsv ∧ ∃ idx < cfg.nElement, area.HasAt cfg conn iTable idx ∧
        TableLock.write.level ≤ (area.pElement idx).eLock.level
    | _ => False
  | _ => True

instance (cfg : TableConfig) (area : TableArea) :
    (call : TableCall) → Decidable (call.Permitted cfg area)
  | .lock _ _ _ .normal => inferInstanceAs (Decidable (_ → _))
  | .lock conn iTable eLock .commit => inferInstanceAs (Decidable
      (if iTable.1 = schemaRoot then eLock = .write
      else eLock = .exclsv ∧ ∃ idx < cfg.nElement, area.HasAt cfg conn iTable idx ∧
        TableLock.write.level ≤ (area.pElement idx).eLock.level))
  | .lock _ _ _ .force => inferInstanceAs (Decidable False)
  | .lock _ _ _ .other => inferInstanceAs (Decidable False)
  | .unlock _ _ => inferInstanceAs (Decidable True)
  | .stmtEnd _ => inferInstanceAs (Decidable True)
  | .transEnd _ => inferInstanceAs (Decidable True)
  | .procEnd _ => inferInstanceAs (Decidable True)

/-- The levels that stand side by side. -/
structure Compatible (cfg : TableConfig) (area : TableArea) : Prop where
  lawful : area.Lawful cfg
  /-- One connection has the exclusive lock. -/
  exclsv : ∀ {a b : Conn} {iTable : RootPage}, iTable.1 ≠ schemaRoot →
    area.Holds cfg a iTable .exclsv → area.Holds cfg b iTable .exclsv → a = b
  /-- One that may delete all rows is the only writer. -/
  writeEx : ∀ {a b : Conn} {iTable : RootPage} {level : TableLock}, iTable.1 ≠ schemaRoot →
    area.Holds cfg a iTable .writeEx → area.Holds cfg b iTable level →
    TableLock.write.level ≤ level.level → a = b
  /-- One that writes the schema has it alone. -/
  schema : ∀ {a b : Conn} {iTable : RootPage} {level : TableLock}, iTable.1 = schemaRoot →
    area.Holds cfg a iTable .write → area.Holds cfg b iTable level → a = b
  /-- The schema is read or written. -/
  levels : ∀ {a : Conn} {iTable : RootPage} {level : TableLock}, iTable.1 = schemaRoot →
    area.Holds cfg a iTable level → level = .read ∨ level = .write

namespace Compatible

open TableArea

variable {cfg : TableConfig} {area area' : TableArea} {conn other : Conn} {iTable : RootPage}
  {eLock level : TableLock} {mode : LockMode}

/-- Taking levels away keeps the rest compatible. -/
theorem mono (compatible : Compatible cfg area) (lawful : area'.Lawful cfg)
    (fewer : ∀ {conn iTable level}, area'.Holds cfg conn iTable level →
      area.Holds cfg conn iTable level) : Compatible cfg area' where
  lawful := lawful
  exclsv normal left right := compatible.exclsv normal (fewer left) (fewer right)
  writeEx normal left right := compatible.writeEx normal (fewer left) (fewer right)
  schema root left right := compatible.schema root (fewer left) (fewer right)
  levels root held := compatible.levels root (fewer held)

/-- An unopposed request meets no refusing level. -/
theorem not_refused (unopposed : area.Unopposed cfg conn iTable eLock mode)
    (held : area.Holds cfg other iTable level) (apart : other ≠ conn) :
    if iTable.1 = schemaRoot then ¬ (level = .write ∨ (level = .read ∧ eLock = .write))
    else level ≠ .exclsv ∧ (mode = .normal →
      ¬ (TableLock.write.level ≤ level.level ∧ TableLock.writeEx.level ≤ eLock.level) ∧
      ¬ (TableLock.writeEx.level ≤ level.level ∧ TableLock.write.level ≤ eLock.level)) := by
  obtain ⟨idx, has, rfl⟩ := held
  have foreign : ¬ (area.pElement idx).heldBy conn.1 := by
    rw [TableElement.heldBy_iff, has.2]
    exact fun same => apart (Subtype.ext same)
  have passes := unopposed idx has.1 has.iTable_eq foreign
  unfold TableElement.refuses at passes
  rw [has.iTable_eq] at passes
  split_ifs at passes ⊢ with root
  · exact passes
  · refine ⟨fun exclusive => passes (Or.inl exclusive), fun normal => ⟨fun both => ?_, fun both => ?_⟩⟩
    · exact passes (Or.inr (Or.inl ⟨normal, both⟩))
    · exact passes (Or.inr (Or.inr (Or.inl ⟨normal, both⟩)))

/-- A permitted lock request keeps the levels compatible. -/
theorem lock (compatible : Compatible cfg area)
    (permitted : (TableCall.lock conn iTable eLock mode).Permitted cfg area) :
    Compatible cfg (sqlite3rowlockIpcLockTable cfg conn.1 area iTable.1 eLock mode).2.1 := by
  have requested : mode ≠ .force := by
    rintro rfl
    exact permitted
  have outcome := compatible.lawful.lockTable_outcome conn iTable eLock mode
  generalize sqlite3rowlockIpcLockTable cfg conn.1 area iTable.1 eLock mode = result at outcome ⊢
  -- In the commit mode the requester could write the table already.
  have writer : mode ≠ .normal → iTable.1 ≠ schemaRoot → eLock = .exclsv ∧
      ∃ level, area.Holds cfg conn iTable level ∧ TableLock.write.level ≤ level.level := by
    intro commit normal
    cases mode with
    | normal => exact absurd rfl commit
    | force => exact absurd rfl requested
    | other => exact permitted.elim
    | commit =>
      simp only [TableCall.Permitted, if_neg normal] at permitted
      obtain ⟨exclusive, idx, -, has, enough⟩ := permitted
      exact ⟨exclusive, _, ⟨idx, has, rfl⟩, enough⟩
  have schemaLevel : iTable.1 = schemaRoot → eLock = .read ∨ eLock = .write := by
    intro root
    cases mode with
    | normal => exact permitted root
    | commit => exact Or.inr (by simpa only [TableCall.Permitted, if_pos root] using permitted)
    | force => exact absurd rfl requested
    | other => exact permitted.elim
  refine ⟨outcome.lawful compatible.lawful, ?_, ?_, ?_, ?_⟩
  · intro a b table normal left right
    obtain same | ⟨left, right⟩ |
      ⟨rfl, unopposed, ⟨rfl, rfl, apart, held⟩ | ⟨rfl, rfl, apart, held⟩⟩ :=
      outcome.pair requested left right
    · exact same
    · exact compatible.exclsv normal left right
    all_goals
      have passes := not_refused unopposed held apart
      rw [if_neg normal] at passes
      exact absurd rfl passes.1
  · intro a b table level normal left right enough
    obtain same | ⟨left, right⟩ |
      ⟨rfl, unopposed, ⟨rfl, rfl, apart, held⟩ | ⟨rfl, rfl, apart, held⟩⟩ :=
      outcome.pair requested left right
    · exact same
    · exact compatible.writeEx normal left right enough
    · have passes := not_refused unopposed held apart
      rw [if_neg normal] at passes
      by_cases mode_eq : mode = .normal
      · exact absurd ⟨le_refl _, enough⟩ (passes.2 mode_eq).2
      · obtain ⟨-, level, before, writing⟩ := writer mode_eq normal
        exact compatible.writeEx normal held before writing
    · have passes := not_refused unopposed held apart
      rw [if_neg normal] at passes
      by_cases mode_eq : mode = .normal
      · exact absurd ⟨enough, le_refl _⟩ (passes.2 mode_eq).1
      · exact absurd (writer mode_eq normal).1 (by decide)
  · intro a b table level root left right
    obtain same | ⟨left, right⟩ |
      ⟨rfl, unopposed, ⟨rfl, rfl, apart, held⟩ | ⟨rfl, rfl, apart, held⟩⟩ :=
      outcome.pair requested left right
    · exact same
    · exact compatible.schema root left right
    · have passes := not_refused unopposed held apart
      rw [if_pos root] at passes
      exact absurd (Or.inl rfl) passes
    · have passes := not_refused unopposed held apart
      rw [if_pos root] at passes
      rcases compatible.levels root held with reads | writes
      · exact absurd (Or.inr ⟨reads, rfl⟩) passes
      · exact absurd (Or.inl writes) passes
  · intro a table level root held
    rcases outcome.holds requested held with held | ⟨⟨-, rfl, rfl⟩, -⟩
    · exact compatible.levels root held
    · exact schemaLevel root

/-- A permitted call keeps levels compatible. -/
theorem perform {call : TableCall} (compatible : Compatible cfg area)
    (permitted : call.Permitted cfg area) : Compatible cfg (call.perform cfg area) := by
  refine perform_induct call (fun conn iTable eLock mode same => ?_)
    (fun area pHandle iTable mode held => ?_) compatible
  · subst same
    exact compatible.lock permitted
  · have outcome := held.lawful.unlockTable_outcome pHandle iTable mode
    exact held.mono (outcome.lawful held.lawful) fun after => outcome.holds held.lawful after

/-- At the start nobody has a lock. -/
theorem init (cfg : TableConfig) : Compatible cfg tableClassInitArea := by
  have nothing : ∀ {conn iTable level}, ¬ tableClassInitArea.Holds cfg conn iTable level := by
    rintro conn iTable level ⟨idx, has, -⟩
    exact iTable.2 has.iTable_eq.symm
  exact ⟨init_lawful cfg, fun _ left => absurd left nothing, fun _ left => absurd left nothing,
    fun _ left => absurd left nothing, fun _ held => absurd held nothing⟩

end Compatible

/-- After every sequence of permitted calls: one connection at most has the exclusive lock on a
table, one that may delete all rows is its only writer, one that writes the schema has it alone, no
table and connection has two entries, and the count is the number of entries, one slot being free.
-/
theorem tableLocks_compatible (cfg : TableConfig) (calls : List TableCall)
    (permitted : Guarded (TableCall.perform cfg) (TableCall.Permitted cfg) tableClassInitArea
      calls) :
    let area := TableArea.after cfg calls
    (∀ (a b : Conn) (iTable : RootPage), iTable.1 ≠ schemaRoot →
      area.Holds cfg a iTable .exclsv → area.Holds cfg b iTable .exclsv → a = b) ∧
    (∀ (a b : Conn) (iTable : RootPage) (level : TableLock), iTable.1 ≠ schemaRoot →
      area.Holds cfg a iTable .writeEx → area.Holds cfg b iTable level →
      TableLock.write.level ≤ level.level → a = b) ∧
    (∀ (a b : Conn) (iTable : RootPage) (level : TableLock), iTable.1 = schemaRoot →
      area.Holds cfg a iTable .write → area.Holds cfg b iTable level → a = b) ∧
    (∀ i < cfg.nElement, ∀ j < cfg.nElement, (area.pElement i).iTable ≠ 0 →
      (area.pElement i).key = (area.pElement j).key → i = j) ∧
    area.count = ((Finset.range cfg.nElement).filter fun i => (area.pElement i).iTable ≠ 0).card ∧
    area.count ≤ cfg.nElement - 1 := by
  have compatible := permitted.invariant (P := Compatible cfg)
    (fun area call held allowed => held.perform allowed) (Compatible.init cfg)
  change Compatible cfg (TableArea.after cfg calls) at compatible
  generalize TableArea.after cfg calls = area at compatible
  refine ⟨fun a b iTable normal => compatible.exclsv normal,
    fun a b iTable level normal => compatible.writeEx normal,
    fun a b iTable level root => compatible.schema root, ?_, ?_, ?_⟩
  · intro i left j right used same
    have used' : (area.pElement j).iTable ≠ 0 := by
      rw [← show (area.pElement i).iTable = (area.pElement j).iTable from congrArg Prod.fst same]
      exact used
    exact compatible.lawful.ring.slot_unique left right (tableClass_valid_iff.2 used)
      (tableClass_valid_iff.2 used') same
  · have counted := compatible.lawful.ring.counted
    unfold stored validSlots at counted
    rw [Multiset.card_map, Finset.card_val] at counted
    simpa only [tableClass_valid_iff] using counted
  · have room := compatible.lawful.ring.room
    omega

/-- Two writers; the second takes the exclusive lock. -/
def writersCommit : List TableCall :=
  [.lock connA tableTwo .write .normal, .lock connB tableTwo .write .normal, .stmtEnd connA,
    .lock connB tableTwo .exclsv .commit, .lock connA tableTwo .writeEx .normal]

/-- Two writers, of which one commits. -/
theorem tableLocks_compatible_writers :
    let cfg := tableConfig 4 (by decide)
    let area := TableArea.after cfg writersCommit
    Guarded (TableCall.perform cfg) (TableCall.Permitted cfg) tableClassInitArea writersCommit ∧
      (∃ idx < cfg.nElement, area.HasAt cfg connB tableTwo idx ∧
        (area.pElement idx).eLock = .exclsv) ∧
      (∀ a b, area.Holds cfg a tableTwo .exclsv → area.Holds cfg b tableTwo .exclsv → a = b) ∧
      area.count ≤ 3 :=
  ⟨by decide, by decide,
    fun a b => (tableLocks_compatible (tableConfig 4 (by decide)) writersCommit (by decide)).1 a b
      tableTwo (by decide),
    (tableLocks_compatible (tableConfig 4 (by decide)) writersCommit (by decide)).2.2.2.2.2⟩

end SQLumDash.Ipc
