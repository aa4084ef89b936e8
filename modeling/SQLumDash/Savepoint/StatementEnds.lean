import SQLumDash.Savepoint.Statements

/-!
# What the end of a statement undoes

The savepoint stack of a database has a layer for each open frame. With the layers the end of a
statement finds its own entry in each database it started on and nothing in the others.
-/

namespace SQLumDash.Savepoint

open Runs Function
open List (length_cons mem_cons mem_cons_of_mem mem_cons_self suffix_rfl mem_singleton)

variable {Db Record Env : Type}

section

variable {base : Int} {nSavepoint : Nat} {db : Db} {frame outer : Frame Db Record}
  {frames inner rest : List (Frame Db Record)} {stack above below : List RowLockSavepointEntry}
  {history older : List Record} {entry : RowLockSavepointEntry}

/-- Open frames are numbered from the outermost one. -/
def Numbered (base : Int) : List (Frame Db Record) → Prop
  | [] => True
  | frame :: rest => frame.iSavepoint = rest.length + base ∧ Numbered base rest

/-- Numbers are below the next one. -/
theorem Numbered.lt_next (numbered : Numbered base frames) :
    ∀ frame ∈ frames, frame.iSavepoint < frames.length + base := by
  induction frames with
  | nil => exact fun _ member => nomatch member
  | cons first rest ih =>
    intro frame member
    have here := numbered.1
    simp only [length_cons]
    rcases mem_cons.1 member with rfl | inside
    · omega
    · have later := ih numbered.2 frame inside
      omega

/-- The frames outside are numbered. -/
theorem Numbered.enclosing (numbered : Numbered base (inner ++ rest)) : Numbered base rest := by
  induction inner with
  | nil => exact numbered
  | cons _ _ ih => exact ih numbered.2

/-- The stack in layers, one for each open frame: its own entry with what was left above it, or
nothing. Left above are larger numbers, and the second entry of an inner statement. -/
inductive Layers (nSavepoint : Nat) (db : Db) :
    List (Frame Db Record) → List RowLockSavepointEntry → List Record → Prop
  | bottom {stack : List RowLockSavepointEntry} {history : List Record} :
    Layers nSavepoint db [] stack history
  | started {frame : Frame Db Record} {rest : List (Frame Db Record)}
      {above below : List RowLockSavepointEntry} {history older : List Record} :
    frame.start db = some older → older <:+ history →
    (∀ entry ∈ above, frame.iSavepoint < entry.iSavepoint ∨
      entry.iSavepoint = nSavepoint ∧ nSavepoint < frame.iSavepoint) →
    Layers nSavepoint db rest below older →
    Layers nSavepoint db (frame :: rest) (above ++ ⟨older.length, frame.iSavepoint⟩ :: below) history
  | absent {frame : Frame Db Record} {rest : List (Frame Db Record)}
      {stack : List RowLockSavepointEntry} {history : List Record} :
    frame.start db = none → (∀ entry ∈ stack, entry.iSavepoint ≠ frame.iSavepoint) →
    Layers nSavepoint db rest stack history → Layers nSavepoint db (frame :: rest) stack history

section

variable (layers : Layers nSavepoint db frames stack history)

include layers

/-- More history changes no layer. -/
theorem Layers.extend {longer : List Record} (suffix : history <:+ longer) :
    Layers nSavepoint db frames stack longer := by
  induction layers with
  | bottom => exact .bottom
  | started start shorter left below _ => exact .started start (shorter.trans suffix) left below
  | absent start others _ ih => exact .absent start others (ih suffix)

/-- Where no statement is open, the counter does not matter. -/
theorem Layers.recount {counter : Nat} (small : ∀ frame ∈ frames, frame.iSavepoint ≤ nSavepoint) :
    Layers counter db frames stack history := by
  induction layers with
  | bottom => exact .bottom
  | started start shorter left _ ih =>
    refine .started start shorter (fun entry member => Or.inl ?_)
      (ih fun frame member => small frame (mem_cons_of_mem _ member))
    have bound := small _ mem_cons_self
    rcases left entry member with larger | second
    · exact larger
    · omega
  | absent start others _ ih =>
    exact .absent start others (ih fun frame member => small frame (mem_cons_of_mem _ member))

/-- A larger number may be put on the stack. -/
theorem Layers.push (larger : ∀ frame ∈ frames, frame.iSavepoint < entry.iSavepoint) :
    Layers nSavepoint db frames (entry :: stack) history := by
  induction layers with
  | bottom => exact .bottom
  | started start shorter left below _ =>
    refine List.cons_append ▸ .started start shorter (fun each member => ?_) below
    rcases mem_cons.1 member with rfl | inside
    · exact Or.inl (larger _ mem_cons_self)
    · exact left each inside
  | absent start others _ ih =>
    refine .absent start (fun each member => ?_)
      (ih fun frame member => larger frame (mem_cons_of_mem _ member))
    rcases mem_cons.1 member with rfl | inside
    · exact Int.ne_of_gt (larger _ mem_cons_self)
    · exact others each inside

end

/-- A larger number may be taken off the stack. -/
theorem Layers.pop (layers : Layers nSavepoint db frames (entry :: stack) history)
    (larger : ∀ frame ∈ frames, frame.iSavepoint < entry.iSavepoint) :
    Layers nSavepoint db frames stack history := by
  generalize whole : entry :: stack = full at layers
  induction layers with
  | bottom => exact .bottom
  | @started frame rest above below _ _ start shorter left inside _ =>
    cases above with
    | nil =>
      obtain ⟨same, -⟩ := List.cons.inj whole
      have bound := larger frame mem_cons_self
      rw [same] at bound
      exact absurd bound (Int.lt_irrefl _)
    | cons top above =>
      obtain ⟨-, rfl⟩ := List.cons.inj whole
      exact .started start shorter (fun each member => left each (mem_cons_of_mem _ member)) inside
  | absent start others _ ih =>
    subst whole
    exact .absent start (fun each member => others each (mem_cons_of_mem _ member))
      (ih (fun frame member => larger frame (mem_cons_of_mem _ member)) rfl)

variable {log : RowLockSavepoint Record}

/-- A new largest number goes on top. -/
theorem Layers.create {iSavepoint : Int}
    (layers : Layers nSavepoint db frames log.pSavepoints log.pHistory)
    (larger : ∀ frame ∈ frames, frame.iSavepoint < iSavepoint) :
    ∃ below, rowlockSavepointCreate log iSavepoint =
        ⟨log.pHistory, ⟨log.pHistory.length, iSavepoint⟩ :: below⟩ ∧
      Layers nSavepoint db frames below log.pHistory := by
  obtain ⟨history, stack⟩ := log
  unfold rowlockSavepointCreate
  split_ifs with top
  · cases stack with
    | nil => cases top
    | cons first below =>
      obtain rfl : first = ⟨history.length, iSavepoint⟩ := Option.some.inj top
      exact ⟨below, rfl, layers.pop larger⟩
  · exact ⟨stack, rfl, layers⟩

/-- The innermost frame finds its own entry. -/
theorem Layers.target_top (layers : Layers nSavepoint db (frame :: rest) stack history)
    (start : frame.start db = some older) :
    ∃ below, target stack frame.iSavepoint = some (older.length, below) ∧
      older <:+ history ∧ Layers nSavepoint db rest below older := by
  cases layers with
  | started start' shorter left inside =>
    cases Option.some.inj (start.symm.trans start')
    refine ⟨_, ?_, shorter, inside⟩
    rw [target_append, target_here]
    intro entry member
    rcases left entry member with larger | second <;> omega
  | absent start' => cases start.symm.trans start'

/-- A frame that did not start there has none. -/
theorem Layers.target_absent (layers : Layers nSavepoint db (frame :: rest) stack history)
    (start : frame.start db = none) :
    target stack frame.iSavepoint = none ∧ Layers nSavepoint db rest stack history := by
  cases layers with
  | started start' => cases start.symm.trans start'
  | absent _ others inside => exact ⟨target_none others, inside⟩

/-- An open frame finds its own entry, unless an inner one has the number. -/
theorem Layers.target_enclosing
    (layers : Layers nSavepoint db (inner ++ outer :: rest) stack history)
    (numbered : Numbered base (inner ++ outer :: rest))
    (unmasked : Unmasked nSavepoint (inner ++ outer :: rest))
    (start : outer.start db = some older) :
    ∃ below, target stack outer.iSavepoint = some (older.length, below) ∧
      older <:+ history ∧ Layers nSavepoint db rest below older := by
  induction inner generalizing stack history with
  | nil => exact layers.target_top start
  | cons first inner ih =>
    have member : outer ∈ inner ++ outer :: rest := by simp
    have smaller : outer.iSavepoint < first.iSavepoint := by
      have bound := numbered.2.lt_next outer member
      have here := numbered.1
      omega
    have unmaskedRest : Unmasked nSavepoint (inner ++ outer :: rest) :=
      fun o outside i inside => unmasked o (mem_cons_of_mem _ outside) i (mem_cons_of_mem _ inside)
    cases layers with
    | @started _ _ above below _ previous start' shorter left inside =>
      obtain ⟨lower, found, suffix, layered⟩ := ih inside numbered.2 unmaskedRest
      refine ⟨lower, ?_, suffix.trans shorter, layered⟩
      rw [target_append, target, if_neg (Int.ne_of_gt smaller), found]
      intro entry above
      rcases left entry above with larger | ⟨second, -⟩
      · omega
      · intro same
        rcases unmasked outer (mem_cons_of_mem _ member) first mem_cons_self
          (same.symm.trans second) smaller db with none_ | none_
        · cases start.symm.trans none_
        · cases start'.symm.trans none_
    | absent _ _ inside => exact ih inside numbered.2 unmaskedRest

section

variable (layers : Layers nSavepoint db frames log.pSavepoints log.pHistory)
  (larger : ∀ each ∈ frames, each.iSavepoint < frame.iSavepoint)

include layers larger

/-- A new frame with a larger number. -/
theorem Layers.open (start : frame.start db = some log.pHistory) :
    Layers nSavepoint db (frame :: frames)
      (rowlockSavepointCreate log frame.iSavepoint).pSavepoints
      (rowlockSavepointCreate log frame.iSavepoint).pHistory := by
  obtain ⟨below, created, inside⟩ := layers.create larger
  have entries : Layers nSavepoint db (frame :: frames)
      ([] ++ ⟨log.pHistory.length, frame.iSavepoint⟩ :: below) log.pHistory :=
    .started start suffix_rfl (by simp) inside
  rw [created]
  exact entries

/-- A statement on its first database. -/
theorem Layers.start_first (counter : (nSavepoint : Int) ≤ frame.iSavepoint)
    (start : frame.start db = some log.pHistory) : Layers nSavepoint db (frame :: frames)
      (startedLog log frame.iSavepoint nSavepoint).pSavepoints
      (startedLog log frame.iSavepoint nSavepoint).pHistory := by
  obtain ⟨below, created, inside⟩ := layers.create larger
  unfold startedLog
  rw [created]
  by_cases same : (nSavepoint : Int) = frame.iSavepoint
  · have entries : Layers nSavepoint db (frame :: frames)
        ([] ++ ⟨log.pHistory.length, frame.iSavepoint⟩ :: below) log.pHistory :=
      .started start suffix_rfl (by simp) inside
    simpa [rowlockSavepointCreate, RowLockSavepoint.nHistory, same] using entries
  · have apart : (nSavepoint : Int) < frame.iSavepoint :=
      Int.lt_iff_le_and_ne.2 ⟨counter, same⟩
    have entries : Layers nSavepoint db (frame :: frames)
        ([⟨log.pHistory.length, nSavepoint⟩] ++ ⟨log.pHistory.length, frame.iSavepoint⟩ :: below)
        log.pHistory :=
      .started start suffix_rfl (by simp; omega) inside
    simpa [rowlockSavepointCreate, RowLockSavepoint.nHistory, Ne.symm same] using entries

/-- The outermost statement on a further database. -/
theorem Layers.start_next (counter : (nSavepoint : Int) = frame.iSavepoint)
    (start : frame.start db = some log.pHistory) : Layers nSavepoint db (frame :: frames)
      (startedLog log (frame.iSavepoint + 1) nSavepoint).pSavepoints
      (startedLog log (frame.iSavepoint + 1) nSavepoint).pHistory := by
  have next : ∀ each ∈ frames, each.iSavepoint < frame.iSavepoint + 1 := fun each member =>
    Int.lt_add_one_of_le (Int.le_of_lt (larger each member))
  obtain ⟨below, created, inside⟩ := layers.create next
  unfold startedLog
  rw [created, counter]
  have pushed : Layers nSavepoint db frames (⟨log.pHistory.length, frame.iSavepoint + 1⟩ :: below)
      log.pHistory := inside.push next
  exact Layers.open pushed larger start

end

end

section

variable {s : Session Db Record Env} {undo : Env → Record → Env}

/-- The number of the outermost frame. -/
def Session.base (s : Session Db Record Env) : Int :=
  if s.isTransactionSavepoint then -1 else 0

/-- The least number. -/
theorem Session.le_base (s : Session Db Record Env) : -1 ≤ s.base := by
  unfold Session.base
  split_ifs <;> decide

/-- The invariant of a connection. -/
structure Session.Orderly (s : Session Db Record Env) : Prop where
  count : s.frames.length + s.base = s.nStatement + s.nSavepoint
  numbered : Numbered s.base s.frames
  /-- User savepoints start on every database. -/
  everywhere : ∀ frame ∈ s.frames, frame.iSavepoint < s.nSavepoint →
    ∀ db, (frame.start db).isSome = true
  layers : ∀ db, Layers s.nSavepoint db s.frames (s.lockSavepoint db).pSavepoints
    (s.lockSavepoint db).pHistory
  /-- Around an open statement no entry is hidden. -/
  unmasked : ∀ frame rest, frame :: rest <:+ s.frames → s.nSavepoint ≤ frame.iSavepoint →
    Unmasked s.nSavepoint rest
  /-- User savepoints are open in a transaction only. -/
  outside : s.autoCommit = true → s.nSavepoint = 0 ∧ s.isTransactionSavepoint = false

/-- At the start nothing is open. -/
theorem Session.Orderly.idle (env : Db → Env) :
    (Session.idle env : Session Db Record Env).Orderly where
  count := rfl
  numbered := trivial
  everywhere := fun _ member => nomatch member
  layers := fun _ => .bottom
  unmasked := fun _ _ suffix => nomatch List.suffix_nil.1 suffix
  outside := fun _ => ⟨rfl, rfl⟩

/-- The invariant where no statement is open. -/
theorem Session.Orderly.of_quiet (counter : Nat) (none_ : s.nStatement = 0)
    (count : s.frames.length + s.base = s.nSavepoint) (numbered : Numbered s.base s.frames)
    (small : ∀ frame ∈ s.frames, frame.iSavepoint ≤ counter)
    (everywhere : ∀ frame ∈ s.frames, ∀ db, (frame.start db).isSome = true)
    (layers : ∀ db, Layers counter db s.frames (s.lockSavepoint db).pSavepoints
      (s.lockSavepoint db).pHistory)
    (outside : s.autoCommit = true → s.nSavepoint = 0 ∧ s.isTransactionSavepoint = false) :
    s.Orderly where
  count := by omega
  numbered := numbered
  everywhere := fun frame member _ => everywhere frame member
  layers := fun db => (layers db).recount small
  unmasked := by
    intro frame rest suffix statement
    have bound := numbered.lt_next frame (suffix.subset mem_cons_self)
    omega
  outside := outside

section

variable (orderly : s.Orderly)

include orderly

variable {frame : Frame Db Record}

section Quiet

variable (none_ : s.nStatement = 0)

include none_

/-- With no statement open, every frame is a user savepoint. -/
theorem Session.Orderly.quiet :
    ∀ frame ∈ s.frames, frame.iSavepoint < s.nSavepoint := by
  intro frame member
  have bound := orderly.numbered.lt_next frame member
  have count := orderly.count
  omega

/-- A user savepoint that is opened with the next number. -/
theorem Session.Orderly.opened {s' : Session Db Record Env}
    (none' : s'.nStatement = 0) (frames : s'.frames = frame :: s.frames)
    (number : frame.iSavepoint = s.frames.length + s'.base) (numbered : Numbered s'.base s.frames)
    (count : (s'.nSavepoint : Int) = frame.iSavepoint + 1) (small : frame.iSavepoint ≤ s.nSavepoint)
    (start : ∀ db, frame.start db = some (s.lockSavepoint db).pHistory)
    (created : ∀ db, s'.lockSavepoint db =
      rowlockSavepointCreate (s.lockSavepoint db) frame.iSavepoint) (inside : s'.autoCommit = false) :
    s'.Orderly := by
  have quiet := orderly.quiet none_
  have larger : ∀ each ∈ s.frames, each.iSavepoint < frame.iSavepoint := by
    intro each member
    have bound := numbered.lt_next each member
    omega
  refine .of_quiet s.nSavepoint none' ?_ ?_ ?_ ?_ ?_ ?_
  · rw [frames, length_cons]
    omega
  · rw [frames]
    exact ⟨number, numbered⟩
  · rw [frames]
    intro each member
    rcases mem_cons.1 member with rfl | old
    · exact small
    · exact Int.le_of_lt (quiet each old)
  · rw [frames]
    intro each member db
    rcases mem_cons.1 member with rfl | old
    · rw [start db]
      rfl
    · exact orderly.everywhere each old (quiet each old) db
  · intro db
    rw [frames, created db]
    exact (orderly.layers db).open larger (start db)
  · intro autoCommit
    rw [inside] at autoCommit
    cases autoCommit

/-- A user savepoint is opened. -/
theorem Session.Orderly.openSavepoint :
    (Savepoint.openSavepoint s).Orderly := by
  have count := orderly.count
  unfold Savepoint.openSavepoint
  cases autoCommit : s.autoCommit with
  | true =>
    obtain ⟨zero, plain⟩ := orderly.outside autoCommit
    have base : s.base = 0 := by simp [Session.base, plain]
    have nothing : s.frames = [] := List.length_eq_zero_iff.1 (by omega)
    rw [if_pos rfl]
    refine orderly.opened none_ none_ rfl ?_ ?_ ?_ ?_ (fun _ => rfl) (fun _ => rfl) rfl
    · simp [nothing, Session.base, none_, zero]
    · rw [nothing]
      trivial
    · dsimp only
      omega
    · dsimp only
      omega
  | false =>
    rw [if_neg (by decide)]
    refine orderly.opened none_ none_ rfl ?_ orderly.numbered ?_ ?_ (fun _ => rfl) (fun _ => rfl)
      rfl
    · change _ = (s.frames.length : Int) + s.base
      dsimp only
      omega
    · dsimp only
      omega
    · dsimp only
      omega

/-- The number at a place is its frame's. -/
theorem Session.Orderly.at_place {place : Nat} (bound : place < s.frames.length) :
    ∃ inner frame rest, s.frames = inner ++ frame :: rest ∧ inner.length = place ∧
      frame.iSavepoint = (s.nSavepoint : Int) - place - 1 ∧ Numbered s.base (frame :: rest) := by
  have split : s.frames = s.frames.take place ++ s.frames[place] :: s.frames.drop (place + 1) := by
    rw [List.getElem_cons_drop, List.take_append_drop]
  have numbered := orderly.numbered
  rw [split] at numbered
  refine ⟨_, _, _, split, by simp; omega, ?_, numbered.enclosing⟩
  have number := numbered.enclosing.1
  have count := orderly.count
  rw [List.length_drop] at number
  omega

/-- A user savepoint ends. -/
theorem Session.Orderly.endSavepoint {op : SavepointOp} {place : Nat}
    (bound : place < s.frames.length)
    (plain : s.isTransactionSavepoint = true → op = .release → place + 1 < s.frames.length) :
    (Savepoint.endSavepoint undo s op place).Orderly := by
  obtain ⟨inner, frame, rest, split, length, number, numbered⟩ := orderly.at_place none_ bound
  have quiet := orderly.quiet none_
  have count := orderly.count
  have unmasked : Unmasked s.nSavepoint s.frames := by
    intro outer member _ _ same
    have small := quiet outer member
    omega
  have member : frame ∈ s.frames := by rw [split]; simp
  have everywhere := fun each inside => orderly.everywhere each inside (quiet each inside)
  have found : ∀ db, ∃ older below newer,
      target (s.lockSavepoint db).pSavepoints frame.iSavepoint = some (older.length, below) ∧
      (s.lockSavepoint db).pHistory = newer ++ older ∧ frame.start db = some older ∧
      Layers s.nSavepoint db rest below older := by
    intro db
    obtain ⟨older, start⟩ := Option.isSome_iff_exists.1 (everywhere frame member db)
    have layers := orderly.layers db
    have all := orderly.numbered
    rw [split] at layers all unmasked
    obtain ⟨below, found, ⟨newer, history⟩, inside⟩ := layers.target_enclosing all unmasked start
    exact ⟨older, below, newer, found, history.symm, start, inside⟩
  have here : s.frames.drop place = frame :: rest := by
    rw [split, ← length, List.drop_left]
  have beyond : s.frames.drop (place + 1) = rest := by
    rw [← List.drop_drop, here, List.drop_one, List.tail_cons]
  have restLength : frame.iSavepoint = rest.length + s.base := numbered.1
  have subset : ∀ each ∈ frame :: rest, each ∈ s.frames := fun each inside =>
    split ▸ List.mem_append_right _ inside
  have low := s.le_base
  unfold Savepoint.endSavepoint savepointAll
  rw [← number]
  cases op with
  | rollback =>
    refine .of_quiet s.nSavepoint none_ ?_ (here ▸ numbered) ?_ ?_ ?_ ?_
    · dsimp only
      rw [here, length_cons]
      change ((rest.length + 1 : Nat) : Int) + s.base = _
      omega
    · rw [here]
      exact fun each inside => Int.le_of_lt (quiet each (subset each inside))
    · rw [here]
      exact fun each inside => everywhere each (subset each inside)
    · intro db
      obtain ⟨older, below, newer, found, history, start, inside⟩ := found db
      have entries : Layers s.nSavepoint db (frame :: rest)
          ([] ++ ⟨older.length, frame.iSavepoint⟩ :: below) older :=
        .started start suffix_rfl (by simp) inside
      have rolled : rowlockSavepoint undo (s.lockSavepoint db) .rollback frame.iSavepoint (s.env db) =
          (⟨older, ⟨older.length, frame.iSavepoint⟩ :: below⟩, newer.foldl undo (s.env db)) := by
        rw [← rowlockSavepoint_rollback found, ← history]
      dsimp only
      rw [here, rolled]
      exact entries
    · exact fun autoCommit => ⟨by simp [(orderly.outside autoCommit).1],
        (orderly.outside autoCommit).2⟩
  | release =>
    have enough : 0 ≤ frame.iSavepoint := by
      by_cases transaction : s.isTransactionSavepoint = true
      · have inner := plain transaction rfl
        rw [split, List.length_append, length_cons] at inner
        omega
      · have base : s.base = 0 := if_neg transaction
        omega
    refine .of_quiet s.nSavepoint none_ ?_ (beyond ▸ numbered.2) ?_ ?_ ?_ ?_
    · dsimp only
      rw [beyond]
      change (rest.length : Int) + s.base = _
      omega
    · rw [beyond]
      exact fun each inside =>
        Int.le_of_lt (quiet each (subset each (mem_cons_of_mem _ inside)))
    · rw [beyond]
      exact fun each inside => everywhere each (subset each (mem_cons_of_mem _ inside))
    · intro db
      obtain ⟨older, below, newer, found, history, start, inside⟩ := found db
      dsimp only
      rw [beyond, rowlockSavepoint_release found]
      exact inside.extend (history ▸ List.suffix_append _ _)
    · exact fun autoCommit => ⟨by simp [(orderly.outside autoCommit).1],
        (orderly.outside autoCommit).2⟩

end Quiet

/-- The innermost frame, while a statement is open. -/
theorem Session.Orderly.innermost (statement : 0 < s.nStatement) :
    ∃ frame rest, s.frames = frame :: rest ∧ s.nSavepoint ≤ frame.iSavepoint := by
  have count := orderly.count
  have numbered := orderly.numbered
  cases frames : s.frames with
  | nil =>
    have low : s.base ≤ 0 := by
      unfold Session.base
      split_ifs <;> decide
    rw [frames] at count
    simp only [List.length_nil] at count
    omega
  | cons frame rest =>
    rw [frames] at count numbered
    have number := numbered.1
    refine ⟨frame, rest, rfl, ?_⟩
    rw [length_cons] at count
    omega

/-- What was recorded since the frame started is undone by a rollback and kept by a release;
elsewhere nothing happens. -/
def EndedExactly (undo : Env → Record → Env) (op : SavepointOp) (frame : Frame Db Record)
    (s s' : Session Db Record Env) (db : Db) : Prop :=
  match frame.start db with
  | none => s'.lockSavepoint db = s.lockSavepoint db ∧ s'.env db = s.env db
  | some older => ∃ newer, (s.lockSavepoint db).pHistory = newer ++ older ∧
    match op with
    | .rollback =>
      (s'.lockSavepoint db).pHistory = older ∧ s'.env db = newer.foldl undo (s.env db)
    | .release =>
      (s'.lockSavepoint db).pHistory = newer ++ older ∧ s'.env db = s.env db

/-- The search ends where the frame started. -/
def Findable (s : Session Db Record Env) (frame : Frame Db Record) : Prop :=
  ∀ db older, frame.start db = some older →
    ∃ below, target (s.lockSavepoint db).pSavepoints frame.iSavepoint = some (older.length, below)

/-- The end of the innermost statement in a database. -/
theorem Session.Orderly.close_db {rest : List (Frame Db Record)} (frames : s.frames = frame :: rest)
    (op : SavepointOp) (db : Db) : let s' := vdbeCloseStatement undo s op
    Layers s.nSavepoint db rest (s'.lockSavepoint db).pSavepoints (s'.lockSavepoint db).pHistory ∧
      EndedExactly undo op frame s s' db := by
  have layers := orderly.layers db
  rw [frames] at layers
  unfold vdbeCloseStatement EndedExactly
  rw [frames]
  cases start : frame.start db with
  | none =>
    obtain ⟨missing, inside⟩ := layers.target_absent start
    cases op <;> simpa [savepointAll, rowlockSavepoint_absent missing] using inside
  | some older =>
    obtain ⟨below, found, ⟨newer, history⟩, inside⟩ := layers.target_top start
    cases op with
    | rollback =>
      have rolled : rowlockSavepoint undo (s.lockSavepoint db) .rollback frame.iSavepoint
          (s.env db) =
            (⟨older, ⟨older.length, frame.iSavepoint⟩ :: below⟩, newer.foldl undo (s.env db)) := by
        rw [← rowlockSavepoint_rollback found, history]
      have released : rowlockSavepoint undo ⟨older, ⟨older.length, frame.iSavepoint⟩ :: below⟩
          .release frame.iSavepoint (newer.foldl undo (s.env db)) =
            (⟨older, below⟩, newer.foldl undo (s.env db)) :=
        rowlockSavepoint_release target_here
      simp only [savepointAll, rolled, released]
      exact ⟨inside, newer, history.symm, trivial, rfl⟩
    | release =>
      simp only [savepointAll, rowlockSavepoint_release found]
      exact ⟨inside.extend ⟨newer, history⟩, newer, history.symm, history.symm, trivial⟩

/-- Without its innermost statement. -/
theorem Session.Orderly.inner_closed {s' : Session Db Record Env}
    (frames : s.frames = frame :: s'.frames) (statements : s'.nStatement + 1 = s.nStatement)
    (savepoints : s'.nSavepoint = s.nSavepoint)
    (transaction : s'.isTransactionSavepoint = s.isTransactionSavepoint)
    (mode : s'.autoCommit = s.autoCommit)
    (layers : ∀ db, Layers s.nSavepoint db s'.frames (s'.lockSavepoint db).pSavepoints
      (s'.lockSavepoint db).pHistory) : s'.Orderly := by
  have base : s'.base = s.base := by rw [Session.base, Session.base, transaction]
  have count := orderly.count
  have numbered := orderly.numbered
  rw [frames] at count numbered
  rw [length_cons] at count
  have inside : ∀ each ∈ s'.frames, each ∈ s.frames := fun each member =>
    frames ▸ mem_cons_of_mem _ member
  have suffix : s'.frames <:+ s.frames := frames ▸ List.suffix_cons _ _
  exact {
    count := by omega
    numbered := base ▸ numbered.2
    everywhere := fun each member small =>
      orderly.everywhere each (inside each member) (savepoints ▸ small)
    layers := savepoints ▸ layers
    unmasked := fun each rest below statement =>
      savepoints ▸ orderly.unmasked each rest (below.trans suffix) (savepoints ▸ statement)
    outside := fun autoCommit => by
      rw [savepoints, transaction]
      exact orderly.outside (mode ▸ autoCommit) }

/-- The end of a statement keeps the invariant. -/
theorem Session.Orderly.closeStatement (statement : 0 < s.nStatement) (op : SavepointOp) :
    (vdbeCloseStatement undo s op).Orderly := by
  obtain ⟨frame, rest, frames, -⟩ := orderly.innermost statement
  have layers : ∀ db, Layers s.nSavepoint db rest
      ((vdbeCloseStatement undo s op).lockSavepoint db).pSavepoints
      ((vdbeCloseStatement undo s op).lockSavepoint db).pHistory :=
    fun db => (orderly.close_db frames op db).1
  have predecessor : s.nStatement - 1 + 1 = s.nStatement := Nat.sub_add_cancel statement
  unfold vdbeCloseStatement at layers ⊢
  rw [frames] at layers ⊢
  cases op <;> exact orderly.inner_closed frames predecessor rfl rfl rfl layers

end

end

section

variable [DecidableEq Db] {s : Session Db Record Env} {undo : Env → Record → Env}

/-- The start of a statement keeps the invariant. -/
theorem Session.Orderly.startStatement (orderly : s.Orderly) {dbs : List Db} (some_ : dbs ≠ [])
    (distinct : dbs.Nodup) (unshared : Unshared s (.start dbs : SessionAction Db Record Env)) :
    (Savepoint.startStatement s dbs).Orderly := by
  obtain ⟨single, stale, unmasked⟩ := unshared
  obtain ⟨first, others, rfl⟩ := List.exists_cons_of_ne_nil some_
  have count := orderly.count
  have larger : ∀ frame ∈ s.frames, frame.iSavepoint < (s.nStatement + s.nSavepoint : Int) := by
    intro frame member
    rw [← count]
    exact orderly.numbered.lt_next frame member
  rw [startStatement_eq s distinct]
  exact {
    count := by
      change ((s.frames.length + 1 : Nat) : Int) + s.base =
        ((s.nStatement + 1 : Nat) : Int) + s.nSavepoint
      omega
    numbered := ⟨by change _ = (s.frames.length : Int) + s.base; dsimp only; omega, orderly.numbered⟩
    everywhere := by
      intro frame member small
      rcases mem_cons.1 member with rfl | old
      · have next : (s.nStatement + s.nSavepoint : Int) < s.nSavepoint := small
        omega
      · exact orderly.everywhere frame old small
    layers := by
      intro db
      have layers := orderly.layers db
      dsimp only
      by_cases here : db = first
      · rw [if_pos here]
        exact layers.start_first larger (by dsimp only; omega) (by simp [here])
      · rw [if_neg here]
        by_cases next : db ∈ others
        · have outermost : s.nStatement = 0 := by
            rcases single with none_ | one
            · exact none_
            · rw [List.length_eq_zero_iff.1 (Nat.succ.inj one)] at next
              cases next
          rw [if_pos next]
          exact layers.start_next larger (by dsimp only; omega) (by simp [next])
        · rw [if_neg next]
          have left : db ∉ first :: others := by simp [here, next]
          exact .absent (if_neg left) (stale db left) layers
    unmasked := by
      intro frame rest suffix statement
      rcases List.suffix_cons_iff.1 suffix with whole | old
      · obtain ⟨-, rfl⟩ := List.cons.inj whole
        exact unmasked
      · exact orderly.unmasked frame rest old statement
    outside := orderly.outside }

/-- The condition on an action. -/
def Proper (s : Session Db Record Env) (action : SessionAction Db Record Env) : Prop :=
  WellNested s action ∧ Unshared s action

/-- Every proper action keeps the invariant. -/
theorem Session.Orderly.step (orderly : s.Orderly) {action : SessionAction Db Record Env}
    (proper : Proper s action) : (sessionStep undo s action).Orderly := by
  obtain ⟨nested, unshared⟩ := proper
  cases action with
  | begin =>
    exact { orderly with outside := fun autoCommit => nomatch autoCommit }
  | savepoint => exact orderly.openSavepoint nested
  | savepointEnd op place => exact orderly.endSavepoint nested.1 nested.2.1 nested.2.2
  | read db =>
    refine { orderly with layers := fun each => ?_ }
    have larger : ∀ frame ∈ s.frames, frame.iSavepoint < (s.nStatement + s.nSavepoint : Int) := by
      intro frame member
      rw [← orderly.count]
      exact orderly.numbered.lt_next frame member
    by_cases here : each = db
    · subst here
      obtain ⟨below, created, inside⟩ := (orderly.layers each).create larger
      change Layers _ _ _ (update s.lockSavepoint each _ each).pSavepoints
        (update s.lockSavepoint each _ each).pHistory
      rw [update_self, created]
      exact inside.push larger
    · change Layers _ _ _ (update s.lockSavepoint db _ each).pSavepoints
        (update s.lockSavepoint db _ each).pHistory
      rw [update_of_ne here]
      exact orderly.layers each
  | start dbs => exact orderly.startStatement nested.1 nested.2 unshared
  | record db record env =>
    refine { orderly with layers := fun each => ?_ }
    by_cases here : each = db
    · subst here
      change Layers _ _ _ (update s.lockSavepoint each _ each).pSavepoints
        (update s.lockSavepoint each _ each).pHistory
      rw [update_self]
      exact (orderly.layers each).extend (List.suffix_cons _ _)
    · change Layers _ _ _ (update s.lockSavepoint db _ each).pSavepoints
        (update s.lockSavepoint db _ each).pHistory
      rw [update_of_ne here]
      exact orderly.layers each
  | close op => exact orderly.closeStatement nested op
  | finish env =>
    exact .of_quiet 0 nested rfl trivial (fun _ member => nomatch member)
      (fun _ member => nomatch member) (fun _ => .bottom) (fun _ => ⟨rfl, rfl⟩)

/-- In every run of proper actions, the end of a statement undoes in each database what was recorded
since the statement started there, or nothing, and the entries of what encloses it are found with
their positions. -/
theorem statement_end_exact (undo : Env → Record → Env) (env : Db → Env)
    (actions : List (SessionAction Db Record Env))
    (guarded : Guarded (sessionStep undo) Proper (Session.idle env) actions) (op : SavepointOp)
    (statement : 0 < (run (sessionStep undo) (Session.idle env) actions).nStatement) :
    let s := run (sessionStep undo) (Session.idle env) actions
    let s' := vdbeCloseStatement undo s op
    ∃ frame, s.frames = frame :: s'.frames ∧ (∀ db, EndedExactly undo op frame s s' db) ∧
      ∀ outer ∈ s'.frames, Findable s' outer := by
  have orderly : (run (sessionStep undo) (Session.idle env) actions).Orderly :=
    guarded.invariant (P := Session.Orderly) (fun _ _ orderly proper => orderly.step proper)
      (.idle env)
  generalize run (sessionStep undo) (Session.idle env) actions = s at orderly statement
  obtain ⟨frame, rest, frames, inner⟩ := orderly.innermost statement
  have after : (vdbeCloseStatement undo s op).Orderly := orderly.closeStatement statement op
  have remaining : (vdbeCloseStatement undo s op).frames = rest := by
    simp only [vdbeCloseStatement, frames]
  have unmasked := orderly.unmasked frame rest (frames ▸ suffix_rfl) inner
  refine ⟨frame, by rw [remaining, frames], fun db => (orderly.close_db frames op db).2, ?_⟩
  intro outer member db older start
  obtain ⟨inside, enclosing, split⟩ := List.append_of_mem member
  have layers : Layers s.nSavepoint db rest
      ((vdbeCloseStatement undo s op).lockSavepoint db).pSavepoints
      ((vdbeCloseStatement undo s op).lockSavepoint db).pHistory :=
    (orderly.close_db frames op db).1
  have numbered := after.numbered
  rw [split] at numbered
  rw [← remaining, split] at layers unmasked
  obtain ⟨below, found, -, -⟩ := layers.target_enclosing numbered unmasked start
  exact ⟨below, found⟩

end

/-- The undo of a locked row. -/
def unlockRow (rows : List Nat) (row : Nat) : List Nat := rows.erase row

/-- A statement on one of two databases, inside a savepoint. -/
def oneStatement : List (SessionAction Bool Nat (List Nat)) :=
  [.begin, .savepoint, .start [true], .record true 7 [7]]

/-- Its actions are proper. -/
theorem oneStatement_proper :
    Guarded (sessionStep unlockRow) Proper (Session.idle fun _ => []) oneStatement := by
  refine ⟨⟨trivial, trivial⟩, ⟨rfl, trivial⟩, ⟨⟨by decide, by decide⟩, ?_⟩, ⟨trivial, trivial⟩,
    trivial⟩
  refine ⟨Or.inl rfl, fun db left entry member => ?_, fun outer member inner inside same => ?_⟩
  · cases db with
    | true => exact absurd (mem_singleton.2 rfl) left
    | false =>
      cases mem_singleton.1 member
      decide
  · cases mem_singleton.1 member
    cases same

/-- The statement ends exactly. -/
theorem statement_end_exact_one :
    let s := run (sessionStep unlockRow) (Session.idle fun _ => []) oneStatement
    let s' := vdbeCloseStatement unlockRow s .rollback
    0 < s.nStatement ∧ ∃ frame, s.frames = frame :: s'.frames ∧
      (∀ db, EndedExactly unlockRow .rollback frame s s' db) ∧
      ∀ outer ∈ s'.frames, Findable s' outer :=
  ⟨by decide, statement_end_exact unlockRow (fun _ => []) oneStatement oneStatement_proper
    .rollback (by decide)⟩

/-- An inner statement starts on two databases and locks a row in the second. -/
def innerStatement : List (SessionAction Bool Nat (List Nat)) :=
  [.begin, .start [true], .start [true, false], .record false 7 [7]]

/-- Its rollback does not unlock the row. -/
theorem inner_statement_not_undone :
    let s := run (sessionStep unlockRow) (Session.idle fun _ => []) innerStatement
    let s' := vdbeCloseStatement unlockRow s .rollback
    (s.frames.head?.bind fun frame => frame.start false) = some [] ∧
      (s.lockSavepoint false).pHistory = [7] ∧ (s'.lockSavepoint false).pHistory = [7] ∧
      s'.env false = [7] := by
  decide

end SQLumDash.Savepoint
