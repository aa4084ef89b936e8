import SQLumDash.Lib.Run
import SQLumDash.Savepoint.LogArrays
import Mathlib.Data.List.Infix

/-!
# What the undo log stands for

A position on the stack stands for the history at the creation of the savepoint. Over any run of
calls the snapshots stay nested. A rollback gives the snapshot back and undoes what was recorded
since.
-/

namespace SQLumDash.Savepoint

/-- The history and the savepoints, each with the history at its creation. -/
structure Snapshots (Record : Type) where
  history : List Record
  stack : List (Int × List Record)

namespace Snapshots

variable {Record Env : Type}

section

variable (s : Snapshots Record)

/-- A new savepoint, unless the newest one is the same. -/
def create (iSavepoint : Int) : Snapshots Record :=
  if s.stack.head?.map (fun top => (top.1, top.2.length)) = some (iSavepoint, s.history.length) then s
  else { s with stack := (iSavepoint, s.history) :: s.stack }

/-- A record is added. -/
def add (record : Record) : Snapshots Record :=
  { s with history := record :: s.history }

/-- The topmost savepoint with a number, and those below. -/
def find : List (Int × List Record) → Int → Option (List Record × List (Int × List Record))
  | [], _ => none
  | (number, snapshot) :: below, iSavepoint =>
    if number = iSavepoint then some (snapshot, below) else find below iSavepoint

/-- A rollback to, or the release of, the topmost one. -/
def savepoint (op : SavepointOp) (iSavepoint : Int) : Snapshots Record :=
  match find s.stack iSavepoint with
  | none => s
  | some (snapshot, below) =>
    match op with
    | .rollback => ⟨snapshot, (iSavepoint, snapshot) :: below⟩
    | .release => ⟨s.history, below⟩

/-- Every snapshot is the older part of those above and of the history. -/
def Nested : Prop :=
  (s.history :: s.stack.map Prod.snd).Pairwise fun newer older => older <:+ newer

/-- Its number and how much was recorded. -/
def entry (saved : Int × List Record) : RowLockSavepointEntry := ⟨saved.2.length, saved.1⟩

/-- The log with positions in place of snapshots. -/
def log : RowLockSavepoint Record := ⟨s.history, s.stack.map entry⟩

end

variable {s : Snapshots Record} {above below : List (Int × List Record)} {snapshot : List Record}
  {iSavepoint : Int}

/-- Other numbers are passed. -/
theorem find_append (others : ∀ saved ∈ above, saved.1 ≠ iSavepoint) :
    find (above ++ (iSavepoint, snapshot) :: below) iSavepoint = some (snapshot, below) := by
  induction above with
  | nil => exact if_pos rfl
  | cons saved rest ih =>
    rw [List.cons_append, find, if_neg (others saved List.mem_cons_self)]
    exact ih fun each member => others each (List.mem_cons_of_mem _ member)

/-- Where it is found. -/
theorem find_split {stack : List (Int × List Record)}
    (found : find stack iSavepoint = some (snapshot, below)) :
    ∃ above, stack = above ++ (iSavepoint, snapshot) :: below := by
  induction stack with
  | nil => cases found
  | cons saved rest ih =>
    rw [find] at found
    split at found
    · next here =>
      cases found
      exact ⟨[], by rw [← here]; rfl⟩
    · obtain ⟨above, same⟩ := ih found
      exact ⟨saved :: above, by rw [same]; rfl⟩

/-- The search on positions is that on snapshots. -/
theorem target_map (stack : List (Int × List Record)) (iSavepoint : Int) :
    target (stack.map entry) iSavepoint =
      (find stack iSavepoint).map fun found => (found.1.length, found.2.map entry) := by
  induction stack with
  | nil => rfl
  | cons saved rest ih =>
    rw [List.map_cons, target, find]
    show (if saved.1 = iSavepoint then _ else _) = _
    split
    · rfl
    · exact ih

/-- A creation keeps snapshots nested. -/
theorem Nested.create (nested : Nested s) (iSavepoint : Int) : Nested (s.create iSavepoint) := by
  unfold Snapshots.create
  split
  · exact nested
  · refine List.pairwise_cons.2 ⟨?_, nested⟩
    intro older member
    rcases List.mem_cons.1 member with rfl | deeper
    · exact List.suffix_refl _
    · exact (List.pairwise_cons.1 nested).1 older deeper

/-- An addition keeps them nested. -/
theorem Nested.add (nested : Nested s) (record : Record) : Nested (s.add record) := by
  obtain ⟨top, rest⟩ := List.pairwise_cons.1 nested
  refine List.pairwise_cons.2 ⟨?_, rest⟩
  intro older member
  exact (top older member).trans (List.suffix_cons record s.history)

/-- A rollback or a release keeps them nested. -/
theorem Nested.savepoint (nested : Nested s) (op : SavepointOp) (iSavepoint : Int) :
    Nested (s.savepoint op iSavepoint) := by
  unfold Snapshots.savepoint
  cases found : find s.stack iSavepoint with
  | none => exact nested
  | some target =>
    obtain ⟨snapshot, below⟩ := target
    obtain ⟨above, same⟩ := find_split found
    have stack : s.stack.map Prod.snd =
        above.map Prod.snd ++ snapshot :: below.map Prod.snd := by simp [same]
    unfold Nested at nested
    rw [stack, List.pairwise_cons] at nested
    obtain ⟨top, saved⟩ := nested
    have deeper := (List.pairwise_append.1 saved).2.1
    cases op with
    | rollback =>
      refine List.pairwise_cons.2 ⟨?_, deeper⟩
      intro older member
      rcases List.mem_cons.1 member with rfl | deepest
      · exact List.suffix_refl _
      · exact (List.pairwise_cons.1 deeper).1 older deepest
    | release =>
      refine List.pairwise_cons.2 ⟨?_, (List.pairwise_cons.1 deeper).2⟩
      intro older member
      exact top older (List.mem_append_right _ (List.mem_cons_of_mem _ member))

/-- A creation on the log. -/
theorem log_create (s : Snapshots Record) (iSavepoint : Int) :
    rowlockSavepointCreate s.log iSavepoint = (s.create iSavepoint).log := by
  have latest : s.log.pSavepoints.head? = some ⟨s.log.nHistory, iSavepoint⟩ ↔
      s.stack.head?.map (fun top => (top.1, top.2.length)) = some (iSavepoint, s.history.length) := by
    obtain ⟨history, stack⟩ := s
    cases stack with
    | nil => simp [log]
    | cons top rest => simp [log, entry, RowLockSavepoint.nHistory, and_comm]
  unfold rowlockSavepointCreate create
  by_cases duplicate : s.stack.head?.map (fun top => (top.1, top.2.length)) =
      some (iSavepoint, s.history.length)
  · rw [if_pos duplicate, if_pos (latest.2 duplicate)]
  · rw [if_neg duplicate, if_neg (mt latest.1 duplicate)]
    rfl

section

variable (undo : Env → Record → Env) (env : Env)
  (found : find s.stack iSavepoint = some (snapshot, below))

include undo env found

/-- A rollback leaves the snapshot. -/
theorem log_rollback {newer : List Record} (split : s.history = newer ++ snapshot) :
    Savepoint.rowlockSavepoint undo s.log .rollback iSavepoint env =
      ((⟨snapshot, (iSavepoint, snapshot) :: below⟩ : Snapshots Record).log,
        newer.foldl undo env) := by
  have searched : target (s.stack.map entry) iSavepoint =
      some (snapshot.length, below.map entry) := by rw [target_map, found]; rfl
  unfold log
  rw [split]
  exact rowlockSavepoint_rollback searched

/-- A release leaves the history. -/
theorem log_release : Savepoint.rowlockSavepoint undo s.log .release iSavepoint env =
      ((⟨s.history, below⟩ : Snapshots Record).log, env) := by
  have searched : target (s.stack.map entry) iSavepoint =
      some (snapshot.length, below.map entry) := by rw [target_map, found]; rfl
  exact rowlockSavepoint_release searched

end

/-- The history since a snapshot. -/
theorem Nested.history_split (nested : Nested s)
    (found : find s.stack iSavepoint = some (snapshot, below)) :
    ∃ newer, s.history = newer ++ snapshot := by
  obtain ⟨above, same⟩ := find_split found
  have member : snapshot ∈ s.stack.map Prod.snd := by simp [same]
  obtain ⟨newer, split⟩ := (List.pairwise_cons.1 nested).1 snapshot member
  exact ⟨newer, split.symm⟩

/-- Both on the log. -/
theorem log_savepoint (nested : Nested s) (undo : Env → Record → Env) (op : SavepointOp)
    (iSavepoint : Int) (env : Env) :
    (Savepoint.rowlockSavepoint undo s.log op iSavepoint env).1 =
      (s.savepoint op iSavepoint).log := by
  cases found : find s.stack iSavepoint with
  | none =>
    have searched : target s.log.pSavepoints iSavepoint = none := by
      rw [log, target_map, found]
      rfl
    simp only [rowlockSavepoint_absent searched, savepoint, found]
  | some target =>
    obtain ⟨snapshot, below⟩ := target
    cases op with
    | rollback =>
      obtain ⟨newer, split⟩ := nested.history_split found
      simp only [log_rollback undo env found split, savepoint, found]
    | release => simp only [log_release undo env found, savepoint, found]

end Snapshots

namespace Arrays

section Runs

variable {Record Env : Type} [Inhabited Record]

/-- A call on the log, with the allocator's answers. -/
inductive LogCall (Record : Type) where
  | create (alloc : Nat → Bool) (iSavepoint : Int)
  | add (alloc : Nat → Bool) (record : Record) (key : Option Nat)
  | savepoint (op : SavepointOp) (iSavepoint : Int)
  | close

/-- A call on the arrays and on the snapshots. One that fails means nothing. -/
def perform (s : RowLockSavepoint Record × Snapshots Record) :
    LogCall Record → RowLockSavepoint Record × Snapshots Record
  | .create alloc iSavepoint =>
    let created := rowlockSavepointCreate alloc s.1 iSavepoint
    (created.2, if created.1 = .ok then s.2.create iSavepoint else s.2)
  | .add alloc record key =>
    let added := sqlite3rowlockHistoryAdd alloc s.1 record key
    (added.2, if added.1 = .ok then s.2.add record else s.2)
  | .savepoint op iSavepoint =>
    ((rowlockSavepoint (fun env _ => env) s.1 op iSavepoint ()).1, s.2.savepoint op iSavepoint)
  | .close => (closed, ⟨[], []⟩)

/-- The arrays hold history and positions. -/
structure Represents (log : RowLockSavepoint Record) (s : Snapshots Record) : Prop where
  lists : log.lists = s.log
  sized : Sized log
  nested : s.Nested

/-- An unused log. -/
theorem represents_closed : Represents (closed : RowLockSavepoint Record) ⟨[], []⟩ :=
  ⟨rfl, sized_closed, List.pairwise_singleton _ _⟩

/-- Every call. -/
theorem Represents.perform {s : RowLockSavepoint Record × Snapshots Record}
    (represents : Represents s.1 s.2) (call : LogCall Record) :
    Represents (perform s call).1 (perform s call).2 := by
  obtain ⟨lists, sized, nested⟩ := represents
  cases call with
  | create alloc iSavepoint =>
    obtain ⟨rc, log, made, sizedLog, outcome⟩ :=
      rowlockSavepointCreate_cases alloc sized iSavepoint
    simp only [Arrays.perform, made]
    rcases outcome with ⟨rfl, same⟩ | ⟨rfl, created⟩
    · exact ⟨same.trans lists, sizedLog, nested⟩
    · rw [lists, Snapshots.log_create] at created
      exact ⟨created, sizedLog, nested.create iSavepoint⟩
  | add alloc record key =>
    obtain ⟨rc, log, made, sizedLog, outcome⟩ :=
      sqlite3rowlockHistoryAdd_cases alloc sized record key
    simp only [Arrays.perform, made]
    rcases outcome with ⟨rfl, same⟩ | ⟨rfl, added⟩
    · exact ⟨same.trans lists, sizedLog, nested⟩
    · rw [lists] at added
      exact ⟨added, sizedLog, nested.add record⟩
  | savepoint op iSavepoint =>
    have refined := rowlockSavepoint_lists (fun env _ => env) s.1 op iSavepoint ()
    rw [lists] at refined
    have same := congrArg Prod.fst refined
    rw [Snapshots.log_savepoint nested] at same
    exact ⟨same, sized.rowlockSavepoint (fun env _ => env) op iSavepoint (),
      nested.savepoint op iSavepoint⟩
  | close => exact represents_closed

/-- Whatever was called, the arrays represent the snapshots. -/
theorem represents_run (calls : List (LogCall Record)) :
    Represents (Runs.run perform (closed, ⟨[], []⟩) calls).1
      (Runs.run perform (closed, ⟨[], []⟩) calls).2 := by
  have keeps (s : RowLockSavepoint Record × Snapshots Record) (call : LogCall Record)
      (represents : Represents s.1 s.2) :
      Represents (Arrays.perform s call).1 (Arrays.perform s call).2 := represents.perform call
  exact Runs.run_invariant keeps calls represents_closed

omit [Inhabited Record] in
/-- Positions do not decrease towards the top. -/
theorem Represents.positions {log : RowLockSavepoint Record} {s : Snapshots Record}
    (represents : Represents log s) {i j : Nat} (le : i ≤ j) (bound : j < log.nSavepoints) :
    (log.pSavepoints i).iLockRecord ≤ (log.pSavepoints j).iLockRecord ∧
      (log.pSavepoints j).iLockRecord ≤ log.nHistory := by
  have stack : newest log.pSavepoints log.nSavepoints = s.stack.map Snapshots.entry :=
    congrArg Savepoint.RowLockSavepoint.pSavepoints represents.lists
  have history : log.nHistory = s.history.length := by
    rw [← length_newest log.pHistory log.nHistory]
    exact congrArg (fun lists => lists.pHistory.length) represents.lists
  obtain ⟨top, saved⟩ := List.pairwise_cons.1 represents.nested
  constructor
  · rcases Nat.lt_or_eq_of_le le with less | rfl
    · have ordered : (newest log.pSavepoints log.nSavepoints).Pairwise
          fun newer older => older.iLockRecord ≤ newer.iLockRecord := by
        rw [stack, List.pairwise_map]
        exact (List.pairwise_map.1 saved).imp fun suffix => suffix.length_le
      exact pairwise_newest.1 ordered i j less bound
    · exact Nat.le_refl _
  · have member : log.pSavepoints j ∈ s.stack.map Snapshots.entry := by
      rw [← stack]
      exact mem_newest.2 ⟨j, bound, rfl⟩
    obtain ⟨each, stacked, same⟩ := List.mem_map.1 member
    rw [← same, history]
    exact (top each.2 (List.mem_map_of_mem stacked)).length_le

/-- The log replays a suffix: a rollback undoes exactly what was recorded since the topmost
savepoint with the number was created, the newest first, and a release undoes nothing. A creation
and an addition that get the memory they ask for add their entry. -/
theorem savepointLog_replays_suffix (undo : Env → Record → Env) (calls : List (LogCall Record)) :
    let s := Runs.run perform (closed, ⟨[], []⟩) calls
    s.1.lists = s.2.log ∧ s.1.nHistory < 2 ^ 31 ∧ s.1.nSavepoints < 2 ^ 31 ∧
    (∀ i j, i ≤ j → j < s.1.nSavepoints →
      (s.1.pSavepoints i).iLockRecord ≤ (s.1.pSavepoints j).iLockRecord ∧
        (s.1.pSavepoints j).iLockRecord ≤ s.1.nHistory) ∧
    (∀ alloc iSavepoint, (∀ n ∈ createRequests s.1, sqlite3Malloc alloc n = true) →
      ∃ log, rowlockSavepointCreate alloc s.1 iSavepoint = (.ok, log) ∧
        log.lists = (s.2.create iSavepoint).log) ∧
    (∀ alloc record key, (∀ n ∈ addRequests s.1 key, sqlite3Malloc alloc n = true) →
      ∃ log, sqlite3rowlockHistoryAdd alloc s.1 record key = (.ok, log) ∧
        log.lists = (s.2.add record).log) ∧
    (∀ env iSavepoint above snapshot below,
      s.2.stack = above ++ (iSavepoint, snapshot) :: below →
      (∀ saved ∈ above, saved.1 ≠ iSavepoint) →
      ∃ newer rolledBack released,
        s.2.history = newer ++ snapshot ∧
        rowlockSavepoint undo s.1 .rollback iSavepoint env = (rolledBack, newer.foldl undo env) ∧
        rolledBack.nHistory = snapshot.length ∧
        rolledBack.lists = Snapshots.log ⟨snapshot, (iSavepoint, snapshot) :: below⟩ ∧
        rowlockSavepoint undo s.1 .release iSavepoint env = (released, env) ∧
        released.lists = Snapshots.log ⟨s.2.history, below⟩) ∧
    (∀ env op iSavepoint, (∀ saved ∈ s.2.stack, saved.1 ≠ iSavepoint) →
      rowlockSavepoint undo s.1 op iSavepoint env = (s.1, env)) := by
  intro s
  have represents : Represents s.1 s.2 := represents_run calls
  refine ⟨represents.lists, represents.sized.nHistory_lt, represents.sized.nSavepoints_lt,
    fun i j le bound => represents.positions le bound, ?_, ?_, ?_, ?_⟩
  · intro alloc iSavepoint granted
    obtain ⟨log, made, lists⟩ := rowlockSavepointCreate_granted represents.sized iSavepoint granted
    rw [represents.lists, Snapshots.log_create] at lists
    exact ⟨log, made, lists⟩
  · intro alloc record key granted
    obtain ⟨log, made, lists⟩ := sqlite3rowlockHistoryAdd_granted represents.sized record granted
    rw [represents.lists] at lists
    exact ⟨log, made, lists⟩
  · intro env iSavepoint above snapshot below stack others
    have found : Snapshots.find s.2.stack iSavepoint = some (snapshot, below) := by
      rw [stack]
      exact Snapshots.find_append others
    obtain ⟨newer, split⟩ := represents.nested.history_split found
    have rolledBack := rowlockSavepoint_lists undo s.1 .rollback iSavepoint env
    rw [represents.lists, Snapshots.log_rollback undo env found split] at rolledBack
    obtain ⟨lists, undone⟩ := Prod.mk.inj rolledBack
    have released := rowlockSavepoint_lists undo s.1 .release iSavepoint env
    rw [represents.lists, Snapshots.log_release undo env found] at released
    obtain ⟨listsReleased, same⟩ := Prod.mk.inj released
    have length := congrArg (fun lists => lists.pHistory.length) lists
    exact ⟨newer, _, _, split, Prod.ext rfl undone, (length_newest _ _).symm.trans length, lists,
      Prod.ext rfl same, listsReleased⟩
  · intro env op iSavepoint others
    have absent : target s.1.lists.pSavepoints iSavepoint = none := by
      rw [represents.lists]
      apply target_none
      intro entry member
      obtain ⟨saved, stacked, rfl⟩ := List.mem_map.1 member
      exact others saved stacked
    exact rowlockSavepoint_not_founded undo absent op env

end Runs

end Arrays

end SQLumDash.Savepoint
