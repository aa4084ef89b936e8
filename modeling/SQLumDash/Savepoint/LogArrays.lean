import SQLumDash.Savepoint.Log
import Mathlib.Logic.Function.Basic

/-!
# The undo log as arrays

The history and the stack of savepoints are arrays that grow by doubling, and the loops over them
run downwards. Every call on them is the call on the lists of `Savepoint.Log`. An allocation that
fails leaves the lists as they are. No count comes near the largest `int`, since no array of that
size is given out.
-/

namespace SQLumDash.Savepoint

open Function

section Newest

variable {α : Type}

/-- The first elements of an array, the newest first. -/
def newest (array : Nat → α) : Nat → List α
  | 0 => []
  | count + 1 => array count :: newest array count

/-- As many as counted. -/
@[simp] theorem length_newest (array : Nat → α) (count : Nat) :
    (newest array count).length = count := by
  induction count with
  | zero => rfl
  | succ count ih => rw [newest, List.length_cons, ih]

/-- Only counted elements matter. -/
theorem newest_congr {array other : Nat → α} {count : Nat}
    (same : ∀ i < count, array i = other i) : newest array count = newest other count := by
  induction count with
  | zero => rfl
  | succ count ih =>
    rw [newest, newest, same count (Nat.lt_succ_self count)]
    rw [ih fun i less => same i (Nat.lt_succ_of_lt less)]

/-- Storing behind the first elements adds to the front. -/
theorem newest_update (array : Nat → α) (count : Nat) (element : α) :
    newest (update array count element) (count + 1) = element :: newest array count := by
  rw [newest, update_self]
  congr 1
  exact newest_congr fun i less => update_of_ne (Nat.ne_of_lt less) _ _

/-- The older elements are what is left behind the newer ones. -/
theorem drop_newest (array : Nat → α) {older count : Nat} (le : older ≤ count) :
    (newest array count).drop (count - older) = newest array older := by
  induction count with
  | zero =>
    obtain rfl : older = 0 := Nat.le_zero.1 le
    rfl
  | succ count ih =>
    by_cases all : older = count + 1
    · rw [all, Nat.sub_self]
      rfl
    · have less : older ≤ count := by omega
      rw [show count + 1 - older = count - older + 1 by omega, newest, List.drop_succ_cons]
      exact ih less

/-- Elements are at an index. -/
theorem mem_newest {array : Nat → α} {count : Nat} {element : α} :
    element ∈ newest array count ↔ ∃ i < count, array i = element := by
  induction count with
  | zero => simp [newest]
  | succ count ih =>
    rw [newest, List.mem_cons, ih]
    constructor
    · rintro (rfl | ⟨i, less, same⟩)
      · exact ⟨count, Nat.lt_succ_self count, rfl⟩
      · exact ⟨i, Nat.lt_succ_of_lt less, same⟩
    · rintro ⟨i, less, same⟩
      rcases Nat.lt_succ_iff_lt_or_eq.1 less with below | rfl
      · exact .inr ⟨i, below, same⟩
      · exact .inl same.symm

/-- The order of the list is that of the indexes. -/
theorem pairwise_newest {R : α → α → Prop} {array : Nat → α} {count : Nat} :
    (newest array count).Pairwise R ↔ ∀ i j, i < j → j < count → R (array j) (array i) := by
  induction count with
  | zero => simp [newest]
  | succ count ih =>
    rw [newest, List.pairwise_cons, ih]
    constructor
    · intro ⟨top, rest⟩ i j less bound
      rcases Nat.lt_succ_iff_lt_or_eq.1 bound with below | rfl
      · exact rest i j less below
      · exact top _ (mem_newest.2 ⟨i, less, rfl⟩)
    · intro all
      constructor
      · intro element member
        obtain ⟨i, less, rfl⟩ := mem_newest.1 member
        exact all i count less (Nat.lt_succ_self count)
      · intro i j less bound
        exact all i j less (Nat.lt_succ_of_lt bound)

end Newest

namespace Arrays

/-- `RowLockSavepoint`. The arrays exist when they have room. -/
structure RowLockSavepoint (Record : Type) where
  pHistory : Nat → Record
  nHistory : Nat
  nHistoryMax : Nat
  pSavepoints : Nat → RowLockSavepointEntry
  nSavepoints : Nat
  nSavepointMax : Nat

variable {Record Env : Type} [Inhabited Record]

/-- Before use, and after `sqlite3rowlockSavepointClose`. -/
def closed : RowLockSavepoint Record := ⟨fun _ => default, 0, 0, fun _ => ⟨0, 0⟩, 0, 0⟩

/-- `ROWLOCK_STACK_DEAULT_SIZE` -/
def stackDefaultSize : Nat := 1024

/-- `ROWLOCK_SAVEPOINT_DEAULT_SIZE` -/
def savepointDefaultSize : Nat := 64

/-- The size of a `RowLockHistory`. -/
def sizeofHistory : Nat := 40

/-- The size of a `RowLockSavepointEntry`. -/
def sizeofEntry : Nat := 16

variable (alloc : Nat → Bool)

section

variable (log : RowLockSavepoint Record)

/-- `rowlockSavepointInit`, without arrays. -/
def rowlockSavepointInit : Option (RowLockSavepoint Record) :=
  if log.nSavepointMax ≠ 0 then some log
  else if sqlite3Malloc alloc (sizeofHistory * stackDefaultSize) ∧
      sqlite3Malloc alloc (sizeofEntry * savepointDefaultSize) then
    some ⟨fun _ => default, 0, stackDefaultSize, fun _ => ⟨0, 0⟩, 0, savepointDefaultSize⟩
  else none

/-- The length of an array with room for one more element. -/
def grow (size count max : Nat) : Option Nat :=
  if max ≤ count then if sqlite3Malloc alloc (size * max * 2) then some (max * 2) else none
  else some max

/-- Room for one more savepoint. -/
def growSavepoints : Option (RowLockSavepoint Record) :=
  (grow alloc sizeofEntry log.nSavepoints log.nSavepointMax).map fun nSavepointMax =>
    { log with nSavepointMax := nSavepointMax }

/-- Room for one more record. -/
def growHistory : Option (RowLockSavepoint Record) :=
  (grow alloc sizeofHistory log.nHistory log.nHistoryMax).map fun nHistoryMax =>
    { log with nHistoryMax := nHistoryMax }

/-- The new element of the stack of savepoints. -/
def pushSavepoint (iSavepoint : Int) : RowLockSavepoint Record :=
  { log with
    pSavepoints := update log.pSavepoints log.nSavepoints ⟨log.nHistory, iSavepoint⟩
    nSavepoints := log.nSavepoints + 1 }

/-- The new element of the history. -/
def pushHistory (record : Record) : RowLockSavepoint Record :=
  { log with
    pHistory := update log.pHistory log.nHistory record
    nHistory := log.nHistory + 1 }

/-- `rowlockSavepointCreate` -/
def rowlockSavepointCreate (iSavepoint : Int) : Rc × RowLockSavepoint Record :=
  match rowlockSavepointInit alloc log with
  | none => (.nomem, log)
  | some log =>
    match growSavepoints alloc log with
    | none => (.nomem, log)
    | some log =>
      -- No new element if it is the same as the latest one.
      if log.nSavepoints > 0 ∧
          log.pSavepoints (log.nSavepoints - 1) = ⟨log.nHistory, iSavepoint⟩ then
        (.ok, log)
      else
        (.ok, pushSavepoint log iSavepoint)

/-- `sqlite3rowlockHistoryAdd`, with the size of a copied key. -/
def sqlite3rowlockHistoryAdd (record : Record) (key : Option Nat) : Rc × RowLockSavepoint Record :=
  match rowlockSavepointInit alloc log with
  | none => (.nomem, log)
  | some log =>
    match growHistory alloc log with
    | none => (.nomem, log)
    | some log =>
      if key.all (sqlite3Malloc alloc) then (.ok, pushHistory log record) else (.nomem, log)

/-- The search of `rowlockSavepoint`, downwards. -/
def searchLoop (pSavepoints : Nat → RowLockSavepointEntry) (iSavepoint : Int) : Nat → Option Nat
  | 0 => if (pSavepoints 0).iSavepoint = iSavepoint then some 0 else none
  | i + 1 =>
    if (pSavepoints (i + 1)).iSavepoint = iSavepoint then some (i + 1)
    else searchLoop pSavepoints iSavepoint i

/-- The undo loop of `rowlockSavepoint`, downwards to the position. -/
def undoLoop (undo : Env → Record → Env) (pHistory : Nat → Record) (idxRowid : Nat) :
    Nat → Env → Env
  | 0, env => if 0 ≥ idxRowid then undo env (pHistory 0) else env
  | iStack + 1, env =>
    if iStack + 1 ≥ idxRowid then
      let env := undo env (pHistory (iStack + 1))
      if iStack + 1 = idxRowid then env else undoLoop undo pHistory idxRowid iStack env
    else env

/-- Elements from an index on are set to zero. -/
def clearFrom {α : Type} (array : Nat → α) (zero : α) (start : Nat) : Nat → α :=
  fun i => if i < start then array i else zero

/-- The savepoints from an index on are erased. -/
def eraseSavepoints (nSavepoints : Nat) : RowLockSavepoint Record :=
  if log.nSavepoints > nSavepoints then
    { log with
      pSavepoints := clearFrom log.pSavepoints ⟨0, 0⟩ nSavepoints
      nSavepoints := nSavepoints }
  else log

/-- The history from a position on is erased. -/
def eraseHistory (idxRowid : Nat) : RowLockSavepoint Record :=
  if log.nHistory > idxRowid then
    { log with
      pHistory := clearFrom log.pHistory default idxRowid
      nHistory := idxRowid }
  else log

end

/-- `rowlockSavepoint`, over any kind of undo. -/
def rowlockSavepoint (undo : Env → Record → Env) (log : RowLockSavepoint Record)
    (op : SavepointOp) (iSavepoint : Int) (env : Env) : RowLockSavepoint Record × Env :=
  let founded := if log.nSavepoints > 0 then
    searchLoop log.pSavepoints iSavepoint (log.nSavepoints - 1) else none
  match founded with
  | none => (log, env)
  | some i =>
    let idxRowid := (log.pSavepoints i).iLockRecord
    match op with
    | .rollback =>
      let env := if log.nHistory > 0 then
        undoLoop undo log.pHistory idxRowid (log.nHistory - 1) env else env
      -- The target savepoint stays, the ones above it go.
      (eraseHistory (eraseSavepoints log (i + 1)) idxRowid, env)
    | .release => (eraseSavepoints log i, env)

/-- The lists that the arrays hold. -/
def RowLockSavepoint.lists (log : RowLockSavepoint Record) : Savepoint.RowLockSavepoint Record :=
  ⟨newest log.pHistory log.nHistory, newest log.pSavepoints log.nSavepoints⟩

section Refinement

section

omit [Inhabited Record]

/-- The search finds the topmost entry of the list. -/
theorem target_newest (pSavepoints : Nat → RowLockSavepointEntry) (iSavepoint : Int) (i : Nat) :
    target (newest pSavepoints (i + 1)) iSavepoint =
      (searchLoop pSavepoints iSavepoint i).map fun found =>
        ((pSavepoints found).iLockRecord, newest pSavepoints found) := by
  induction i with
  | zero =>
    rw [newest, target, searchLoop]
    split
    · rfl
    · rfl
  | succ i ih =>
    rw [newest, target, searchLoop]
    split
    · rfl
    · exact ih

/-- What the search finds. -/
theorem searchLoop_found {pSavepoints : Nat → RowLockSavepointEntry} {iSavepoint : Int}
    {i found : Nat} (searched : searchLoop pSavepoints iSavepoint i = some found) :
    found ≤ i ∧ (pSavepoints found).iSavepoint = iSavepoint := by
  induction i with
  | zero =>
    rw [searchLoop] at searched
    split at searched
    · next here =>
      cases searched
      exact ⟨Nat.le_refl 0, here⟩
    · cases searched
  | succ i ih =>
    rw [searchLoop] at searched
    split at searched
    · next here =>
      cases searched
      exact ⟨Nat.le_refl _, here⟩
    · have below := ih searched
      exact ⟨Nat.le_succ_of_le below.1, below.2⟩

/-- The loop undoes the newest first. -/
theorem undoLoop_eq (undo : Env → Record → Env) (pHistory : Nat → Record) (idxRowid iStack : Nat)
    (env : Env) :
    undoLoop undo pHistory idxRowid iStack env =
      ((newest pHistory (iStack + 1)).take (iStack + 1 - idxRowid)).foldl undo env := by
  induction iStack generalizing env with
  | zero =>
    rw [undoLoop]
    by_cases reached : 0 ≥ idxRowid
    · obtain rfl : idxRowid = 0 := Nat.le_zero.1 reached
      rfl
    · rw [if_neg reached, show 0 + 1 - idxRowid = 0 by omega]
      rfl
  | succ iStack ih =>
    rw [undoLoop, newest]
    by_cases reached : iStack + 1 ≥ idxRowid
    · rw [if_pos reached, show iStack + 1 + 1 - idxRowid = (iStack + 1 - idxRowid) + 1 by omega,
        List.take_succ_cons, List.foldl_cons]
      by_cases last : iStack + 1 = idxRowid
      · rw [last, if_pos rfl, Nat.sub_self]
        rfl
      · simp only [if_neg last]
        exact ih _
    · rw [if_neg reached, show iStack + 1 + 1 - idxRowid = 0 by omega]
      rfl

/-- Clearing the rest changes nothing. -/
theorem newest_clearFrom {α : Type} (array : Nat → α) (zero : α) (start : Nat) :
    newest (clearFrom array zero start) start = newest array start :=
  newest_congr fun _ less => if_pos less

/-- The loop over the whole history. -/
theorem undoLoop_history (undo : Env → Record → Env) (log : RowLockSavepoint Record)
    (idxRowid : Nat) (env : Env) :
    (if log.nHistory > 0 then undoLoop undo log.pHistory idxRowid (log.nHistory - 1) env else env) =
      (log.lists.pHistory.take (log.nHistory - idxRowid)).foldl undo env := by
  unfold RowLockSavepoint.lists
  cases log.nHistory with
  | zero => simp [newest]
  | succ count => exact undoLoop_eq undo log.pHistory idxRowid count env

variable (log : RowLockSavepoint Record)

include log

/-- The search from the top of the stack. -/
theorem target_lists (iSavepoint : Int) : target log.lists.pSavepoints iSavepoint =
      (if log.nSavepoints > 0 then
        searchLoop log.pSavepoints iSavepoint (log.nSavepoints - 1) else none).map fun found =>
        ((log.pSavepoints found).iLockRecord, newest log.pSavepoints found) := by
  unfold RowLockSavepoint.lists
  cases log.nSavepoints with
  | zero => rfl
  | succ count => exact target_newest log.pSavepoints iSavepoint count

/-- The stack is cut. -/
theorem eraseSavepoints_lists {nSavepoints : Nat} (le : nSavepoints ≤ log.nSavepoints) :
    (eraseSavepoints log nSavepoints).lists =
      ⟨log.lists.pHistory, newest log.pSavepoints nSavepoints⟩ := by
  unfold eraseSavepoints
  split
  · simp only [RowLockSavepoint.lists, newest_clearFrom]
  · have same : log.nSavepoints = nSavepoints := by omega
    simp only [RowLockSavepoint.lists, same]

/-- The history stays. -/
@[simp] theorem eraseSavepoints_nHistory (nSavepoints : Nat) :
    (eraseSavepoints log nSavepoints).nHistory = log.nHistory := by
  unfold eraseSavepoints
  split
  · rfl
  · rfl

end

/-- The history is cut. -/
theorem eraseHistory_lists (log : RowLockSavepoint Record) (idxRowid : Nat) :
    (eraseHistory log idxRowid).lists =
      ⟨log.lists.pHistory.drop (log.nHistory - idxRowid), log.lists.pSavepoints⟩ := by
  unfold eraseHistory
  split
  · next more =>
    simp only [RowLockSavepoint.lists, newest_clearFrom, drop_newest _ (Nat.le_of_lt more)]
  · have nothing : log.nHistory - idxRowid = 0 := by omega
    simp only [nothing, List.drop_zero]

/-- A call on the arrays is the one on the lists. -/
theorem rowlockSavepoint_lists (undo : Env → Record → Env) (log : RowLockSavepoint Record)
    (op : SavepointOp) (iSavepoint : Int) (env : Env) :
    ((rowlockSavepoint undo log op iSavepoint env).1.lists,
        (rowlockSavepoint undo log op iSavepoint env).2) =
      Savepoint.rowlockSavepoint undo log.lists op iSavepoint env := by
  have searched := target_lists log iSavepoint
  have size : log.lists.nHistory = log.nHistory := length_newest log.pHistory log.nHistory
  by_cases stacked : log.nSavepoints > 0
  case neg =>
    rw [if_neg stacked] at searched
    rw [rowlockSavepoint_absent searched]
    simp only [rowlockSavepoint, if_neg stacked]
  rw [if_pos stacked] at searched
  cases found : searchLoop log.pSavepoints iSavepoint (log.nSavepoints - 1) with
  | none =>
    rw [found] at searched
    rw [rowlockSavepoint_absent searched]
    simp only [rowlockSavepoint, if_pos stacked, found]
  | some i =>
    rw [found] at searched
    obtain ⟨bound, number⟩ := searchLoop_found found
    cases op with
    | rollback =>
      have kept := eraseSavepoints_lists log (show i + 1 ≤ log.nSavepoints by omega)
      have entry : newest log.pSavepoints (i + 1) =
          ⟨(log.pSavepoints i).iLockRecord, iSavepoint⟩ :: newest log.pSavepoints i := by
        rw [newest, ← number]
      simp only [rowlockSavepoint, if_pos stacked, found, undoLoop_history, eraseHistory_lists,
        kept, entry, eraseSavepoints_nHistory, Savepoint.rowlockSavepoint, searched, size,
        Option.map_some]
    | release =>
      have kept := eraseSavepoints_lists log (show i ≤ log.nSavepoints by omega)
      rw [rowlockSavepoint_release searched]
      simp only [rowlockSavepoint, if_pos stacked, found, kept]

/-- A number that is not on the stack changes nothing. -/
theorem rowlockSavepoint_not_founded (undo : Env → Record → Env) {log : RowLockSavepoint Record}
    {iSavepoint : Int} (absent : target log.lists.pSavepoints iSavepoint = none)
    (op : SavepointOp) (env : Env) :
    rowlockSavepoint undo log op iSavepoint env = (log, env) := by
  rw [target_lists, Option.map_eq_none_iff] at absent
  simp only [rowlockSavepoint, absent]

end Refinement

section Growth

/-- The room in the arrays, far below the largest `int`. -/
structure Sized (log : RowLockSavepoint Record) : Prop where
  history : log.nHistory ≤ log.nHistoryMax
  savepoints : log.nSavepoints ≤ log.nSavepointMax
  historyBytes : sizeofHistory * log.nHistoryMax < 0x7fffff00
  savepointBytes : sizeofEntry * log.nSavepointMax < 0x7fffff00
  together : log.nHistoryMax = 0 ↔ log.nSavepointMax = 0

variable {log log' : RowLockSavepoint Record} {alloc : Nat → Bool}

section

omit [Inhabited Record]

/-- What a growth gives. -/
theorem grow_some {size count max max' : Nat} (fits : count ≤ max) (exist : 0 < max)
    (bytes : size * max < 0x7fffff00) (grown : grow alloc size count max = some max') :
    count < max' ∧ size * max' < 0x7fffff00 := by
  unfold grow at grown
  split at grown
  · split at grown
    · next given =>
      cases grown
      have more := (sqlite3Malloc_iff.1 given).1.2
      rw [Nat.mul_assoc] at more
      exact ⟨by omega, more⟩
    · cases grown
  · next room =>
    cases grown
    exact ⟨Nat.lt_of_not_le room, bytes⟩

/-- The top of the stack, as it is read. -/
theorem head?_lists (log : RowLockSavepoint Record) (entry : RowLockSavepointEntry) :
    log.lists.pSavepoints.head? = some entry ↔
      log.nSavepoints > 0 ∧ log.pSavepoints (log.nSavepoints - 1) = entry := by
  unfold RowLockSavepoint.lists
  cases log.nSavepoints with
  | zero | succ count => simp [newest]

variable (sized : Sized log)

include sized

/-- Counts are `int`s. -/
theorem Sized.nHistory_lt : log.nHistory < 2 ^ 31 := by
  have fits := sized.history
  have bytes := sized.historyBytes
  unfold sizeofHistory at bytes
  omega

/-- Counts are `int`s. -/
theorem Sized.nSavepoints_lt : log.nSavepoints < 2 ^ 31 := by
  have fits := sized.savepoints
  have bytes := sized.savepointBytes
  unfold sizeofEntry at bytes
  omega

/-- One savepoint more. -/
theorem Sized.push (free : log.nSavepoints < log.nSavepointMax)
    (iSavepoint : Int) : Sized (pushSavepoint log iSavepoint) :=
  ⟨sized.history, free, sized.historyBytes, sized.savepointBytes, sized.together⟩

/-- One record more. -/
theorem Sized.add (free : log.nHistory < log.nHistoryMax) (record : Record) :
    Sized (pushHistory log record) :=
  ⟨free, sized.savepoints, sized.historyBytes, sized.savepointBytes, sized.together⟩

/-- A growth of the stack. -/
theorem growSavepoints_some (exist : 0 < log.nSavepointMax)
    (grown : growSavepoints alloc log = some log') :
    Sized log' ∧ log'.nSavepoints < log'.nSavepointMax ∧ log'.lists = log.lists := by
  obtain ⟨max, found, rfl⟩ := Option.map_eq_some_iff.1 grown
  obtain ⟨room, bytes⟩ := grow_some sized.savepoints exist sized.savepointBytes found
  refine ⟨⟨sized.history, Nat.le_of_lt room, sized.historyBytes, bytes, ?_⟩, room, rfl⟩
  show log.nHistoryMax = 0 ↔ max = 0
  rw [sized.together]
  omega

/-- A growth of the history. -/
theorem growHistory_some (exist : 0 < log.nSavepointMax)
    (grown : growHistory alloc log = some log') :
    Sized log' ∧ log'.nHistory < log'.nHistoryMax ∧ log'.lists = log.lists := by
  have together := sized.together
  obtain ⟨max, found, rfl⟩ := Option.map_eq_some_iff.1 grown
  obtain ⟨room, bytes⟩ := grow_some sized.history (by omega) sized.historyBytes found
  refine ⟨⟨Nat.le_of_lt room, sized.savepoints, bytes, sized.savepointBytes, ?_⟩, room, rfl⟩
  show max = 0 ↔ log.nSavepointMax = 0
  omega

/-- A cut stack. -/
theorem Sized.eraseSavepoints (nSavepoints : Nat) :
    Sized (eraseSavepoints log nSavepoints) := by
  unfold Arrays.eraseSavepoints
  split
  · next more =>
    have fits : nSavepoints ≤ log.nSavepointMax := Nat.le_trans (Nat.le_of_lt more) sized.savepoints
    exact ⟨sized.history, fits, sized.historyBytes, sized.savepointBytes, sized.together⟩
  · exact sized

end

/-- An unused log. -/
theorem sized_closed : Sized (closed : RowLockSavepoint Record) where
  history := Nat.le_refl 0
  savepoints := Nat.le_refl 0
  historyBytes := show sizeofHistory * 0 < 0x7fffff00 by decide
  savepointBytes := show sizeofEntry * 0 < 0x7fffff00 by decide
  together := Iff.rfl

/-- Once the arrays exist, the log is the one before. -/
theorem rowlockSavepointInit_some (sized : Sized log)
    (made : rowlockSavepointInit alloc log = some log') :
    Sized log' ∧ 0 < log'.nSavepointMax ∧ log'.lists = log.lists := by
  unfold rowlockSavepointInit at made
  by_cases exist : log.nSavepointMax ≠ 0
  · rw [if_pos exist] at made
    cases made
    exact ⟨sized, Nat.pos_of_ne_zero exist, rfl⟩
  · rw [if_neg exist] at made
    have missing : log.nSavepointMax = 0 := not_not.1 exist
    have noSavepoints : log.nSavepoints = 0 := by
      have fits := sized.savepoints
      omega
    have noHistory : log.nHistory = 0 := by
      have fits := sized.history
      have missingHistory := sized.together.2 missing
      omega
    have empty : log.lists = ⟨[], []⟩ := by
      simp only [RowLockSavepoint.lists, noSavepoints, noHistory, newest]
    split at made
    · cases made
      rw [empty]
      refine ⟨⟨Nat.zero_le _, Nat.zero_le _, ?_, ?_, ?_⟩, ?_, rfl⟩
      · show sizeofHistory * stackDefaultSize < 0x7fffff00
        decide
      · show sizeofEntry * savepointDefaultSize < 0x7fffff00
        decide
      · show stackDefaultSize = 0 ↔ savepointDefaultSize = 0
        decide
      · show 0 < savepointDefaultSize
        decide
    · cases made

/-- A creation is the one on the lists, or fails. -/
theorem rowlockSavepointCreate_cases (alloc : Nat → Bool) (sized : Sized log) (iSavepoint : Int) :
    ∃ rc log', rowlockSavepointCreate alloc log iSavepoint = (rc, log') ∧ Sized log' ∧
      (rc = .nomem ∧ log'.lists = log.lists ∨
        rc = .ok ∧ log'.lists = Savepoint.rowlockSavepointCreate log.lists iSavepoint) := by
  cases made : rowlockSavepointInit alloc log with
  | none => exact ⟨.nomem, log, by simp only [rowlockSavepointCreate, made], sized, .inl ⟨rfl, rfl⟩⟩
  | some ready =>
    obtain ⟨sizedReady, exist, sameReady⟩ := rowlockSavepointInit_some sized made
    cases grown : growSavepoints alloc ready with
    | none =>
      refine ⟨.nomem, ready, ?_, sizedReady, .inl ⟨rfl, sameReady⟩⟩
      simp only [rowlockSavepointCreate, made, grown]
    | some room =>
      obtain ⟨sizedRoom, free, sameRoom⟩ := growSavepoints_some sizedReady exist grown
      have same : log.lists = room.lists := (sameRoom.trans sameReady).symm
      have size : room.lists.nHistory = room.nHistory := length_newest room.pHistory room.nHistory
      have latest := head?_lists room ⟨room.nHistory, iSavepoint⟩
      simp only [same, Savepoint.rowlockSavepointCreate, size, latest]
      by_cases duplicate : room.nSavepoints > 0 ∧
          room.pSavepoints (room.nSavepoints - 1) = ⟨room.nHistory, iSavepoint⟩
      · refine ⟨.ok, room, ?_, sizedRoom, .inr ⟨rfl, (if_pos duplicate).symm⟩⟩
        simp only [rowlockSavepointCreate, made, grown, if_pos duplicate]
      · have pushed := sizedRoom.push free iSavepoint
        refine ⟨.ok, pushSavepoint room iSavepoint, ?_, pushed, .inr ⟨rfl, ?_⟩⟩
        · simp only [rowlockSavepointCreate, made, grown, if_neg duplicate]
        · rw [if_neg duplicate]
          simp only [pushSavepoint, RowLockSavepoint.lists, newest_update]

/-- An addition is the one on the lists, or fails. -/
theorem sqlite3rowlockHistoryAdd_cases (alloc : Nat → Bool) (sized : Sized log) (record : Record)
    (key : Option Nat) :
    ∃ rc log', sqlite3rowlockHistoryAdd alloc log record key = (rc, log') ∧ Sized log' ∧
      (rc = .nomem ∧ log'.lists = log.lists ∨
        rc = .ok ∧ log'.lists = ⟨record :: log.lists.pHistory, log.lists.pSavepoints⟩) := by
  cases made : rowlockSavepointInit alloc log with
  | none =>
    exact ⟨.nomem, log, by simp only [sqlite3rowlockHistoryAdd, made], sized, .inl ⟨rfl, rfl⟩⟩
  | some ready =>
    obtain ⟨sizedReady, exist, sameReady⟩ := rowlockSavepointInit_some sized made
    cases grown : growHistory alloc ready with
    | none =>
      refine ⟨.nomem, ready, ?_, sizedReady, .inl ⟨rfl, sameReady⟩⟩
      simp only [sqlite3rowlockHistoryAdd, made, grown]
    | some room =>
      obtain ⟨sizedRoom, free, sameRoom⟩ := growHistory_some sizedReady exist grown
      have same : log.lists = room.lists := (sameRoom.trans sameReady).symm
      rw [same]
      by_cases copied : key.all (sqlite3Malloc alloc) = true
      · have pushed := sizedRoom.add free record
        refine ⟨.ok, pushHistory room record, ?_, pushed, .inr ⟨rfl, ?_⟩⟩
        · simp only [sqlite3rowlockHistoryAdd, made, grown, if_pos copied]
        · simp only [pushHistory, RowLockSavepoint.lists, newest_update]
      · refine ⟨.nomem, room, ?_, sizedRoom, .inl ⟨rfl, rfl⟩⟩
        simp only [sqlite3rowlockHistoryAdd, made, grown, if_neg copied]

/-- What the allocator is asked for: the arrays where they do not exist, and twice the length of a
full one. -/
def requests (log : RowLockSavepoint Record) (size count max : Nat) : List Nat :=
  if log.nSavepointMax = 0 then
    [sizeofHistory * stackDefaultSize, sizeofEntry * savepointDefaultSize]
  else if max ≤ count then [size * max * 2]
  else []

/-- What a creation asks for. -/
def createRequests (log : RowLockSavepoint Record) : List Nat :=
  requests log sizeofEntry log.nSavepoints log.nSavepointMax

/-- What an addition asks for. -/
def addRequests (log : RowLockSavepoint Record) (key : Option Nat) : List Nat :=
  requests log sizeofHistory log.nHistory log.nHistoryMax ++ key.toList

omit [Inhabited Record] in
/-- An array gets the room that it is granted. -/
theorem grow_granted {size count max : Nat} (exist : log.nSavepointMax ≠ 0)
    (granted : ∀ n ∈ requests log size count max, sqlite3Malloc alloc n = true) :
    (grow alloc size count max).isSome = true := by
  unfold requests at granted
  rw [if_neg exist] at granted
  unfold grow
  by_cases full : max ≤ count
  · rw [if_pos full] at granted
    rw [if_pos full, if_pos (granted _ List.mem_cons_self)]
    rfl
  · rw [if_neg full]
    rfl

/-- The arrays are made where what is asked for is granted. -/
theorem rowlockSavepointInit_granted {size count max : Nat} (missing : log.nSavepointMax = 0)
    (granted : ∀ n ∈ requests log size count max, sqlite3Malloc alloc n = true) :
    rowlockSavepointInit alloc log = some
      ⟨fun _ => default, 0, stackDefaultSize, fun _ => ⟨0, 0⟩, 0, savepointDefaultSize⟩ := by
  unfold requests at granted
  rw [if_pos missing] at granted
  unfold rowlockSavepointInit
  rw [if_neg (not_not.2 missing), if_pos ⟨granted _ List.mem_cons_self,
    granted _ (List.mem_cons_of_mem _ List.mem_cons_self)⟩]

/-- With memory a creation adds its savepoint. -/
theorem rowlockSavepointCreate_granted (sized : Sized log) (iSavepoint : Int)
    (granted : ∀ n ∈ createRequests log, sqlite3Malloc alloc n = true) :
    ∃ log', rowlockSavepointCreate alloc log iSavepoint = (.ok, log') ∧
      log'.lists = Savepoint.rowlockSavepointCreate log.lists iSavepoint := by
  have answers : (rowlockSavepointCreate alloc log iSavepoint).1 = .ok := by
    unfold rowlockSavepointCreate
    by_cases missing : log.nSavepointMax = 0
    · rw [rowlockSavepointInit_granted missing granted]
      rfl
    · obtain ⟨room, grown⟩ := Option.isSome_iff_exists.1 (grow_granted missing granted)
      rw [show rowlockSavepointInit alloc log = some log from if_pos missing]
      simp only [growSavepoints, grown, Option.map_some]
      split <;> rfl
  obtain ⟨rc, log', made, -, ⟨rfl, -⟩ | ⟨rfl, created⟩⟩ :=
    rowlockSavepointCreate_cases alloc sized iSavepoint
  · rw [made] at answers
    cases answers
  · exact ⟨log', made, created⟩

/-- With memory an addition adds its record. -/
theorem sqlite3rowlockHistoryAdd_granted (sized : Sized log) (record : Record) {key : Option Nat}
    (granted : ∀ n ∈ addRequests log key, sqlite3Malloc alloc n = true) :
    ∃ log', sqlite3rowlockHistoryAdd alloc log record key = (.ok, log') ∧
      log'.lists = ⟨record :: log.lists.pHistory, log.lists.pSavepoints⟩ := by
  have arrays := fun n member => granted n (List.mem_append_left _ member)
  have copied : key.all (sqlite3Malloc alloc) = true := by
    cases key with
    | none => rfl
    | some n => exact granted n (List.mem_append_right _ List.mem_cons_self)
  have answers : (sqlite3rowlockHistoryAdd alloc log record key).1 = .ok := by
    unfold sqlite3rowlockHistoryAdd
    by_cases missing : log.nSavepointMax = 0
    · rw [rowlockSavepointInit_granted missing arrays]
      simp only [growHistory, grow, if_neg (show ¬ stackDefaultSize ≤ 0 by decide),
        Option.map_some, copied, if_true]
    · obtain ⟨room, grown⟩ := Option.isSome_iff_exists.1 (grow_granted missing arrays)
      rw [show rowlockSavepointInit alloc log = some log from if_pos missing]
      simp only [growHistory, grown, Option.map_some, copied, if_true]
  obtain ⟨rc, log', made, -, ⟨rfl, -⟩ | ⟨rfl, added⟩⟩ :=
    sqlite3rowlockHistoryAdd_cases alloc sized record key
  · rw [made] at answers
    cases answers
  · exact ⟨log', made, added⟩

/-- A cut history. -/
theorem Sized.eraseHistory (sized : Sized log) (idxRowid : Nat) :
    Sized (eraseHistory log idxRowid) := by
  unfold Arrays.eraseHistory
  split
  · next more =>
    have fits : idxRowid ≤ log.nHistoryMax := Nat.le_trans (Nat.le_of_lt more) sized.history
    exact ⟨fits, sized.savepoints, sized.historyBytes, sized.savepointBytes, sized.together⟩
  · exact sized

/-- A rollback or a release. -/
theorem Sized.rowlockSavepoint (sized : Sized log) (undo : Env → Record → Env) (op : SavepointOp)
    (iSavepoint : Int) (env : Env) : Sized (rowlockSavepoint undo log op iSavepoint env).1 := by
  unfold Arrays.rowlockSavepoint
  simp only
  split
  · exact sized
  · cases op with
    | rollback => exact (sized.eraseSavepoints _).eraseHistory _
    | release => exact sized.eraseSavepoints _

end Growth

end Arrays

end SQLumDash.Savepoint
