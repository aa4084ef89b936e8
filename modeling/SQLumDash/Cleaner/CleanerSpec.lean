import SQLumDash.Cleaner.Releases

/-!
# When the cleaner finishes

A table lock is never released: the loop that finds it asks for an entry of any process, the unlock
that it calls for one of the cleaner's own, and so the loop stays there for ever. It does not come
so far where no other process has the mapped files open, since the first call then removes them.
With assertions, the call for the index locks stops at its first one.
-/

namespace SQLumDash.Cleaner

open Ipc Psm Probing Runs
open Outcome (andThen_returns andThen_eq_returns)

section Ring

variable {Elem : Type} {xClass : IpcClass Elem} {nElem start : Nat} {area : LockArea Elem}
  {visit : Nat → LockArea Elem → Outcome (LockArea Elem)}

section

variable (work : ∀ idx, visit idx area = .returns area ∨ visit idx area = .runs)

include work

/-- A slot where the work does not end. -/
theorem ringLoop_runs {stuck : Nat} (hangs : visit stuck area = .runs) (origin : start < nElem)
    (bound : stuck < nElem) (fuel : Nat) :
    ∀ idx < nElem, idx ≠ start → dist nElem start stuck ≤ dist nElem start idx →
      stuck ≠ start → ringLoop nElem visit start fuel idx area = .runs := by
  induction fuel with
  | zero => exact fun _ _ _ _ _ => rfl
  | succ fuel ih =>
    intro idx inside apart ahead other
    rw [ringLoop]
    rcases work idx with returns | runs
    · rw [returns, andThen_returns]
      have passed : stuck ≠ idx := by
        intro same
        rw [same, returns] at hangs
        cases hangs
      have away : dist nElem start stuck ≠ 0 :=
        fun zero => other ((dist_eq_zero origin bound).1 zero)
      have differ : dist nElem start stuck ≠ dist nElem start idx :=
        fun same => passed (dist_inj origin bound inside same)
      have back := dist_prev origin inside apart
      have open_ : xIndexPrev nElem idx ≠ start := by
        intro closed
        have zero := (dist_eq_zero origin (prev_lt inside)).2 closed
        omega
      simp only [open_, if_false]
      exact ih _ (prev_lt inside) open_ (by rw [xIndexPrev_eq]; omega) other
    · rw [runs]
      rfl

/-- A slot where the work does not end. -/
theorem releaseAll_runs {stuck : Nat} (hangs : visit stuck area = .runs) (two : 2 ≤ nElem)
    (origin : procStartLoop xClass nElem area nElem (nElem - 1) < nElem) (bound : stuck < nElem)
    (other : stuck ≠ procStartLoop xClass nElem area nElem (nElem - 1)) (fuel : Nat) :
    releaseAll xClass nElem false fuel visit area = .runs := by
  unfold releaseAll
  rw [Outcome.check_false]
  generalize procStartLoop xClass nElem area nElem (nElem - 1) = start at origin other
  cases fuel with
  | zero => rfl
  | succ fuel =>
    rw [ringLoop]
    rcases work start with returns | runs
    · have apart : xIndexPrev nElem start ≠ start := by
        rw [xIndexPrev_eq, prev_eq_ite origin]
        split_ifs <;> omega
      have farthest := dist_prev_self origin
      have near := dist_lt (n := nElem) (a := start) bound
      rw [returns, andThen_returns]
      simp only [apart, if_false]
      exact ringLoop_runs work hangs origin bound fuel _ (prev_lt origin) apart
        (by rw [xIndexPrev_eq]; omega) other
    · rw [runs]
      rfl

end

end Ring

section Rows

variable {cfg : RowConfig} {area : RowArea}

/-- What a release of row locks leaves. -/
theorem unlockRecordProc_ends (lawful : area.Lawful cfg) (pHandle : Handle) {fuel : Nat}
    (enough : cfg.nElement ≤ fuel) :
    ∃ area', unlockRecordProc cfg false fuel pHandle area = .returns area' ∧ area'.Lawful cfg ∧
      area'.entries cfg = (area.entries cfg).filter fun elem => ¬ elem.releasedBy pHandle :=
  ⟨_, unlockRecordProc_returns lawful pHandle enough, lawful.unlockProc pHandle⟩

/-- The row locks are all released. -/
theorem unlockRecordAll_returns (lawful : area.Lawful cfg) {fuel : Nat}
    (enough : cfg.nElement ≤ fuel) :
    ∃ area', sqlite3rowlockIpcUnlockRecordAll cfg false fuel area = .returns area' ∧
      area'.Lawful cfg ∧ area'.entries cfg = 0 := by
  obtain ⟨area', returns, lawful', kept⟩ := unlockRecordProc_ends lawful ⟨0, 0⟩ enough
  refine ⟨area', returns, lawful', ?_⟩
  exact kept.trans (Multiset.filter_eq_nil.2 fun elem _ stays => stays ⟨.inl rfl, .inl rfl⟩)

end Rows

section Tables

variable {cfg : TableConfig} {area : TableArea} {self : Nat}

/-- No table lock belongs to the process. -/
def OwnsNoTable (cfg : TableConfig) (area : TableArea) (self : Nat) : Prop :=
  ∀ idx < cfg.nElement, (area.pElement idx).iTable ≠ 0 → (area.pElement idx).pid ≠ self

/-- There is no table lock. -/
def NoTableLock (cfg : TableConfig) (area : TableArea) : Prop :=
  ∀ idx < cfg.nElement, (area.pElement idx).iTable = 0

instance (cfg : TableConfig) (area : TableArea) (self : Nat) :
    Decidable (OwnsNoTable cfg area self) :=
  inferInstanceAs (Decidable (∀ idx < cfg.nElement, _))

instance (cfg : TableConfig) (area : TableArea) : Decidable (NoTableLock cfg area) :=
  inferInstanceAs (Decidable (∀ idx < cfg.nElement, _))

section

variable (lawful : area.Lawful cfg) (running : self ≠ 0) (foreign : OwnsNoTable cfg area self)

include lawful running foreign

/-- The unlock finds no entry of the cleaner. -/
theorem unlockTable_unchanged (iTable : RootPage) :
    sqlite3rowlockIpcUnlockTableCore cfg ⟨self, 0⟩ area iTable.1 .trans = area := by
  have none_ : ∀ (owner : Conn) (idx : Nat), TableArea.Matches ⟨self, 0⟩ owner →
      ¬ area.HasAt cfg owner iTable idx := by
    intro owner idx same has
    have pid := same.2.resolve_left running
    rw [← has.heldBy.1] at pid
    exact foreign idx has.1 (tableClass_valid_iff.1 has.valid) pid
  have outcome := lawful.unlockTable_outcome ⟨self, 0⟩ iTable .trans
  generalize sqlite3rowlockIpcUnlockTableCore cfg ⟨self, 0⟩ area iTable.1 .trans = area' at outcome
  cases outcome with
  | absent => rfl
  | removed same has | reset same has => exact absurd has (none_ _ _ same)

/-- The work at a table lock never ends. -/
theorem tableProcSlot_runs {idx : Nat} (used : (area.pElement idx).iTable ≠ 0) (fuel : Nat) :
    tableProcSlot cfg false ⟨self, 0⟩ 0 .trans fuel idx area = .runs := by
  induction fuel with
  | zero => rfl
  | succ fuel ih =>
    have enters := tableClass_valid_iff.2 used
    rw [tableProcSlot]
    simp only [enters, true_or, and_self, if_true]
    rw [unlockTableCore_safe lawful false ⟨self, 0⟩ ⟨_, used⟩,
      unlockTable_unchanged lawful running foreign ⟨_, used⟩]
    exact ih

end

/-- The work at a slot whose entry is not to be released. -/
theorem tableProcSlot_idle {pHandle : Handle} {pid idx : Nat} {mode : UnlockMode}
    (spared : (area.pElement idx).iTable ≠ 0 → pid ≠ 0 ∧ (area.pElement idx).pid ≠ pid)
    (fuel : Nat) :
    tableProcSlot cfg false pHandle pid mode (fuel + 1) idx area = .returns area := by
  rw [tableProcSlot]
  refine if_neg fun enters => ?_
  obtain ⟨other, apart⟩ := spared (tableClass_valid_iff.1 enters.1)
  exact enters.2.1.elim other apart

section

variable {pid : Nat} (lawful : area.Lawful cfg)
  (spared : ∀ idx < cfg.nElement, (area.pElement idx).iTable ≠ 0 →
    pid ≠ 0 ∧ (area.pElement idx).pid ≠ pid)

include lawful spared

/-- A release that is to release no table lock returns. -/
theorem unlockTablesProcCore_idle {pHandle : Handle} {mode : UnlockMode} {fuel : Nat}
    (enough : cfg.nElement ≤ fuel) :
    unlockTablesProcCore cfg false fuel pHandle pid mode area = .returns area := by
  have two := cfg.two_le
  obtain ⟨origin, -⟩ := lawful.ring.procStart_spec two
  obtain ⟨fuel, rfl⟩ : ∃ less, fuel = less + 1 := ⟨fuel - 1, by omega⟩
  have work : ∀ idx < cfg.nElement, ∀ current : TableArea, current = area →
      tableProcSlot cfg false pHandle pid mode (fuel + 1) idx current = .returns current ∧
        current = area := by
    rintro idx bound current rfl
    exact ⟨tableProcSlot_idle (spared idx bound) fuel, rfl⟩
  have idle : unlockProcCore tableClass cfg.nElement (fun _ area => area) area = area :=
    LockArea.unlockProcCore_induct (P := fun current => current = area) (fun _ _ holds => holds) rfl
  rw [unlockTablesProcCore, releaseAll_returns work rfl two origin enough, idle]

/-- A release of nothing leaves the area, if it returns. -/
theorem unlockTablesProcCore_spared (pHandle : Handle) (mode : UnlockMode) (fuel : Nat) :
    (unlockTablesProcCore cfg false fuel pHandle pid mode area).Safe (· = area) := by
  obtain ⟨origin, -⟩ := lawful.ring.procStart_spec cfg.two_le
  refine ringLoop_safe (fun idx bound current same => ?_) _ fuel _ origin area rfl
  subst same
  cases fuel with
  | zero => trivial
  | succ fuel =>
    rw [tableProcSlot_idle (spared idx bound) fuel]
    rfl

end

/-- A table lock keeps the release from ending. -/
theorem unlockTablesAll_runs (lawful : area.Lawful cfg) (running : self ≠ 0)
    (foreign : OwnsNoTable cfg area self) {stuck : Nat} (bound : stuck < cfg.nElement)
    (used : (area.pElement stuck).iTable ≠ 0) (fuel : Nat) :
    sqlite3rowlockIpcUnlockTablesAll cfg false self fuel area = .runs := by
  have two := cfg.two_le
  obtain ⟨origin, vacant⟩ := lawful.ring.procStart_spec two
  have other : stuck ≠ procStartLoop tableClass cfg.nElement area cfg.nElement
      (cfg.nElement - 1) := by
    intro same
    rw [← same, tableClass_valid_iff.2 used] at vacant
    cases vacant
  have work : ∀ idx, tableProcSlot cfg false ⟨self, 0⟩ 0 .trans fuel idx area = .returns area ∨
      tableProcSlot cfg false ⟨self, 0⟩ 0 .trans fuel idx area = .runs := by
    intro idx
    by_cases here : (area.pElement idx).iTable = 0
    · cases fuel with
      | zero => exact Or.inr rfl
      | succ fuel => exact Or.inl (tableProcSlot_idle (fun used => absurd here used) fuel)
    · exact Or.inr (tableProcSlot_runs lawful running foreign here fuel)
  exact releaseAll_runs work (tableProcSlot_runs lawful running foreign used fuel) two origin bound
    other fuel

end Tables

section Stores

variable {Key : Type} {cfg : Config Key} {self fuel : Nat} {opened : Bool} {rows : RowArea}
  {tables : TableArea}

/-- The index locks are all released. -/
theorem psmUnlockRecordAll_returns {cls : RecordClass Key} {pList : PsmList Key}
    (lawful : pList.Lawful cls) {fuel : Nat} (enough : pList.size ≤ fuel) :
    ∃ pList', sqlite3rowlockPsmUnlockRecordAll cls false fuel pList = .returns pList' ∧
      ∀ iTable, pList'.entries iTable = 0 := by
  obtain ⟨pList', core, -, -, entries⟩ := lawful.unlockProcCore 0 0
    (fun _ created => (PsmList.count_le_size created).trans enough)
  refine ⟨pList', ?_, fun iTable => ?_⟩
  · simp only [sqlite3rowlockPsmUnlockRecordAll, Outcome.check_false, core]
  · rw [entries]
    exact Multiset.filter_eq_nil.2 fun elem _ stays => by cases stays

/-- No store has an entry. -/
structure Empty (cfg : Config Key) (stores : Stores Key) : Prop where
  rows : stores.rows.entries cfg.row = 0
  tables : NoTableLock cfg.table stores.tables
  indexes : ∀ iTable, stores.indexes.entries iTable = 0

/-- Closing the files leaves the table locks, or removes the files. -/
theorem finish_returns (rowLawful : rows.Lawful cfg.row) (empty : rows.entries cfg.row = 0)
    (tableLawful : tables.Lawful cfg.table) (running : self ≠ 0)
    (foreign : OwnsNoTable cfg.table tables self) (opened : Bool)
    (enough : cfg.row.nElement + cfg.table.nElement ≤ fuel) :
    ∃ rows' tables', sqlite3rowlockIpcFinish cfg false opened self fuel rows tables =
        .returns (rows', tables') ∧
      rows'.Lawful cfg.row ∧ rows'.entries cfg.row = 0 ∧ tables'.Lawful cfg.table ∧
      tables' = if opened then tables else tableClassInitArea := by
  obtain ⟨rows', first, lawful', kept⟩ := unlockRecordProc_ends rowLawful ⟨self, 0⟩
    (show cfg.row.nElement ≤ fuel by omega)
  have second : unlockTablesProcCore cfg.table false fuel ⟨self, 0⟩ self .trans tables =
      .returns tables :=
    unlockTablesProcCore_idle tableLawful
      (fun idx bound used => ⟨running, foreign idx bound used⟩) (by omega)
  rw [empty, Multiset.filter_zero] at kept
  unfold sqlite3rowlockIpcFinish
  rw [first, andThen_returns, second, andThen_returns]
  cases opened with
  | true => exact ⟨rows', tables, rfl, lawful', kept, tableLawful, rfl⟩
  | false =>
    refine ⟨rowClassInitArea, tableClassInitArea, rfl, RowArea.init_lawful cfg.row, ?_,
      TableArea.init_lawful cfg.table, rfl⟩
    have counted := (RowArea.init_lawful cfg.row).counted
    exact Multiset.card_eq_zero.1 counted.symm

/-- With assertions the third call stops. -/
theorem rowlockCleaner_debug {stores stores' : Stores Key} :
    rowlockCleaner cfg true opened self fuel stores ≠ .returns stores' := by
  intro ends
  obtain ⟨rows, -, ends⟩ := andThen_eq_returns.1 ends
  obtain ⟨first, -, ends⟩ := andThen_eq_returns.1 ends
  obtain ⟨tables, -, ends⟩ := andThen_eq_returns.1 ends
  obtain ⟨second, -, ends⟩ := andThen_eq_returns.1 ends
  obtain ⟨indexes, third, -⟩ := andThen_eq_returns.1 ends
  cases third

/-- A table lock keeps the cleaner from ending. -/
theorem rowlockCleaner_runs {stores stores' : Stores Key} (lawful : stores.tables.Lawful cfg.table)
    (running : self ≠ 0) (foreign : OwnsNoTable cfg.table stores.tables self) {stuck : Nat}
    (bound : stuck < cfg.table.nElement) (used : (stores.tables.pElement stuck).iTable ≠ 0) :
    rowlockCleaner cfg false true self fuel stores ≠ .returns stores' := by
  intro ends
  obtain ⟨rows, -, ends⟩ := andThen_eq_returns.1 ends
  obtain ⟨first, closes, ends⟩ := andThen_eq_returns.1 ends
  obtain ⟨tables, second, -⟩ := andThen_eq_returns.1 ends
  obtain ⟨rows', -, closes⟩ := andThen_eq_returns.1 closes
  obtain ⟨tables', spared, closes⟩ := andThen_eq_returns.1 closes
  have same := unlockTablesProcCore_spared lawful
    (fun idx bound used => ⟨running, foreign idx bound used⟩) ⟨self, 0⟩ .trans fuel
  rw [spared] at same
  obtain rfl : tables' = stores.tables := same
  cases closes
  have runs := unlockTablesAll_runs lawful running foreign bound used fuel
  exact absurd (runs.symm.trans second) nofun

/-- The cleaner finishes and frees every store exactly when assertions are compiled out, and no
other process has the mapped files open or no table is locked, whatever row locks and index locks
there are. -/
theorem cleaner_frees_all_iff (cfg : Config Key) (calls : List (StoreCall Key))
    (debug opened : Bool) (self : Nat) (running : self ≠ 0)
    (foreign : OwnsNoTable cfg.table (Stores.after cfg calls).tables self) :
    (∃ fuel stores', rowlockCleaner cfg debug opened self fuel (Stores.after cfg calls) =
        .returns stores' ∧ Empty cfg stores') ↔
      debug = false ∧ (opened = false ∨ NoTableLock cfg.table (Stores.after cfg calls).tables) := by
  have lawful := Stores.after_lawful cfg calls
  generalize Stores.after cfg calls = stores at foreign lawful
  constructor
  · rintro ⟨fuel, stores', ends, -⟩
    cases debug with
    | true => exact absurd ends rowlockCleaner_debug
    | false =>
      refine ⟨rfl, ?_⟩
      cases opened with
      | false => exact Or.inl rfl
      | true =>
        refine Or.inr fun idx bound => ?_
        by_contra used
        exact rowlockCleaner_runs lawful.tables running foreign bound used ends
  · rintro ⟨rfl, free⟩
    let fuel := cfg.row.nElement + cfg.table.nElement + stores.indexes.size
    have enough : cfg.row.nElement + cfg.table.nElement ≤ fuel := by omega
    obtain ⟨rows, first, rowLawful, noRow⟩ := unlockRecordAll_returns lawful.rows
      (show cfg.row.nElement ≤ fuel by omega)
    obtain ⟨rows', tables', closes, rowLawful', noRow', tableLawful', left⟩ :=
      finish_returns rowLawful noRow lawful.tables running foreign opened enough
    -- The second call finds the table locks, of which there are none, or new files.
    have free' : NoTableLock cfg.table tables' := by
      rw [left]
      rcases free with rfl | none
      · exact fun idx bound => rfl
      · split_ifs
        · exact none
        · exact fun idx bound => rfl
    have second : sqlite3rowlockIpcUnlockTablesAll cfg.table false self fuel tables' =
        .returns tables' :=
      unlockTablesProcCore_idle tableLawful' (fun idx bound used => absurd (free' idx bound) used)
        (by omega)
    obtain ⟨rows'', tables'', closes', -, noRow'', -, left'⟩ :=
      finish_returns rowLawful' noRow' tableLawful' running
        (fun idx bound used => absurd (free' idx bound) used) opened enough
    have free'' : NoTableLock cfg.table tables'' := by
      rw [left']
      split_ifs
      · exact free'
      · exact fun idx bound => rfl
    obtain ⟨indexes, third, noIndex⟩ := psmUnlockRecordAll_returns lawful.indexes
      (show stores.indexes.size ≤ fuel by omega)
    refine ⟨fuel, ⟨rows'', tables'', indexes⟩, ?_, noRow'', free'', noIndex⟩
    simp only [rowlockCleaner, first, closes, second, closes', third, andThen_returns]

/-- A row lock and an index lock of a process that is gone. -/
def strayLocks : List (StoreCall Nat) :=
  [.lockRecord connA tableTwo 7, .createIndex .all tableTwo, .lockIndex .all connA tableTwo 9]

/-- Freed while another process has the files open. -/
theorem cleaner_frees_stray_locks :
    ((2 : Nat) ≠ 0 ∧ OwnsNoTable smallConfig.table (Stores.after smallConfig strayLocks).tables 2) ∧
    ∃ fuel stores', rowlockCleaner smallConfig false true 2 fuel
        (Stores.after smallConfig strayLocks) = .returns stores' ∧ Empty smallConfig stores' :=
  ⟨by decide, (cleaner_frees_all_iff smallConfig strayLocks false true 2 (by decide)
    (by decide)).2 ⟨rfl, Or.inr (by decide)⟩⟩

/-- A read lock that a process left behind keeps the cleaner from ending while another process has
the files open. -/
theorem cleaner_stuck_at_table_lock :
    let stores := Stores.after smallConfig [.table (.lock connA tableTwo .read .normal)]
    OwnsNoTable smallConfig.table stores.tables 2 ∧
      ∀ fuel stores', rowlockCleaner smallConfig false true 2 fuel stores ≠ .returns stores' := by
  intro stores
  have foreign : OwnsNoTable smallConfig.table stores.tables 2 := by decide
  have locked : ∃ idx < smallConfig.table.nElement, (stores.tables.pElement idx).iTable ≠ 0 := by
    decide
  obtain ⟨idx, bound, used⟩ := locked
  have lawful := Stores.after_lawful smallConfig [.table (.lock connA tableTwo .read .normal)]
  exact ⟨foreign, fun fuel stores' =>
    rowlockCleaner_runs lawful.tables (by decide) foreign bound used⟩

end Stores

end SQLumDash.Cleaner
