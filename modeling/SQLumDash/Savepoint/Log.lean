import SQLumDash.Basic

/-!
# The undo log of a transaction

`rowlock_savepoint.c` keeps the history of what a transaction locked and created, and a stack of
numbered positions in it. Numbers may repeat; a search takes the topmost.
-/

namespace SQLumDash.Savepoint

/-- `RowLockSavepointEntry` -/
structure RowLockSavepointEntry where
  iLockRecord : Nat
  iSavepoint : Int
deriving DecidableEq, Repr

/-- `RowLockSavepoint`; both arrays are lists with the newest first. -/
structure RowLockSavepoint (Record : Type) where
  pHistory : List Record
  pSavepoints : List RowLockSavepointEntry
deriving DecidableEq, Repr

/-- `SAVEPOINT_ROLLBACK` and `SAVEPOINT_RELEASE` -/
inductive SavepointOp where
  | rollback
  | release
deriving DecidableEq, Repr

variable {Record Env : Type}

/-- `nHistory` -/
def RowLockSavepoint.nHistory (log : RowLockSavepoint Record) : Nat :=
  log.pHistory.length

/-- Before use, and after `sqlite3rowlockSavepointClose`. -/
def RowLockSavepoint.closed : RowLockSavepoint Record := ⟨[], []⟩

/-- `rowlockSavepointCreate`, with memory. -/
def rowlockSavepointCreate (log : RowLockSavepoint Record) (iSavepoint : Int) :
    RowLockSavepoint Record :=
  if log.pSavepoints.head? = some ⟨log.nHistory, iSavepoint⟩ then log
  else { log with pSavepoints := ⟨log.nHistory, iSavepoint⟩ :: log.pSavepoints }

/-- `sqlite3rowlockHistoryAdd`, with memory or without. -/
def sqlite3rowlockHistoryAdd (alloc : Bool) (log : RowLockSavepoint Record) (record : Record) :
    Rc × RowLockSavepoint Record :=
  if alloc then (.ok, { log with pHistory := record :: log.pHistory }) else (.nomem, log)

/-- The topmost entry with the number, and the stack below. -/
def target : List RowLockSavepointEntry → Int → Option (Nat × List RowLockSavepointEntry)
  | [], _ => none
  | entry :: below, iSavepoint =>
    if entry.iSavepoint = iSavepoint then some (entry.iLockRecord, below)
    else target below iSavepoint

/-- `rowlockSavepoint`, over any kind of undo. -/
def rowlockSavepoint (undo : Env → Record → Env) (log : RowLockSavepoint Record)
    (op : SavepointOp) (iSavepoint : Int) (env : Env) : RowLockSavepoint Record × Env :=
  match target log.pSavepoints iSavepoint with
  | none => (log, env)
  | some (idxRowid, below) =>
    match op with
    | .rollback =>
      let newer := log.nHistory - idxRowid
      (⟨log.pHistory.drop newer, ⟨idxRowid, iSavepoint⟩ :: below⟩,
        (log.pHistory.take newer).foldl undo env)
    | .release => (⟨log.pHistory, below⟩, env)

variable {above below : List RowLockSavepointEntry} {iSavepoint : Int} {position : Nat}

/-- Other numbers are passed. -/
theorem target_append (others : ∀ entry ∈ above, entry.iSavepoint ≠ iSavepoint) :
    target (above ++ below) iSavepoint = target below iSavepoint := by
  induction above with
  | nil => rfl
  | cons entry rest ih =>
    rw [List.cons_append, target, if_neg (others entry List.mem_cons_self)]
    exact ih fun each member => others each (List.mem_cons_of_mem _ member)

/-- The topmost entry is found. -/
theorem target_here :
    target (⟨position, iSavepoint⟩ :: below) iSavepoint = some (position, below) :=
  if_pos rfl

/-- There is no such entry. -/
theorem target_none (others : ∀ entry ∈ below, entry.iSavepoint ≠ iSavepoint) :
    target below iSavepoint = none := by
  have search : target (below ++ []) iSavepoint = target [] iSavepoint := target_append others
  rwa [List.append_nil] at search

section

variable {undo : Env → Record → Env} {env : Env} {older newer : List Record}

/-- A rollback undoes what was recorded since, newest first. -/
theorem rowlockSavepoint_rollback {stack : List RowLockSavepointEntry}
    (found : target stack iSavepoint = some (older.length, below)) :
    rowlockSavepoint undo ⟨newer ++ older, stack⟩ .rollback iSavepoint env =
      (⟨older, ⟨older.length, iSavepoint⟩ :: below⟩, newer.foldl undo env) := by
  have length : (newer ++ older).length - older.length = newer.length := by simp
  simp only [rowlockSavepoint, RowLockSavepoint.nHistory, found, length, List.drop_left,
    List.take_left]

/-- A release undoes nothing. -/
theorem rowlockSavepoint_release {log : RowLockSavepoint Record}
    (found : target log.pSavepoints iSavepoint = some (position, below)) :
    rowlockSavepoint undo log .release iSavepoint env = (⟨log.pHistory, below⟩, env) := by
  simp only [rowlockSavepoint, found]

/-- A number that is not on the stack changes nothing. -/
theorem rowlockSavepoint_absent {log : RowLockSavepoint Record} {op : SavepointOp}
    (absent : target log.pSavepoints iSavepoint = none) :
    rowlockSavepoint undo log op iSavepoint env = (log, env) := by
  simp only [rowlockSavepoint, absent]

end

end SQLumDash.Savepoint
