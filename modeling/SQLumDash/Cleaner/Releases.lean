import SQLumDash.Cleaner.RowlockCleaner

/-!
# The release functions with their assertions and loops

The release of row locks ends and takes exactly the handle's entries. Of the assertions that some
slot is empty, those of the search from an entry onwards hold. The walk back from the last slot
fails its assertion on arriving at slot zero, before it has looked whether that is empty.
-/

namespace SQLumDash.Cleaner

open Ipc Psm Probing Runs

section Assertions

variable {Elem Content Key : Type} {xClass : IpcClass Elem} {content : Elem → Content}
  {key : Content → Key} {xCalcHash : Key → Nat} {nElem : Nat} {area : LockArea Elem}
  {data : Nat → Elem} {hash empty idxStart hole idx : Nat}

/-- The search for an empty slot behind an entry finds one. -/
theorem emptyFails_false (hashBound : hash < nElem)
    (vacancy : ∃ j < nElem, xClass.xElemIsValid (data j) = false) (fuel : Nat) :
    ∀ idx < nElem, (∀ j < nElem, dist nElem hash j < dist nElem hash idx →
        xClass.xElemIsValid (data j) = true) →
      emptyFails xClass nElem data hash fuel idx = false := by
  induction fuel with
  | zero => exact fun _ _ _ => rfl
  | succ fuel ih =>
    intro idx bound visited
    unfold emptyFails
    cases valid : xClass.xElemIsValid (data idx) with
    | false => rfl
    | true =>
      by_cases last : xIndexNext nElem idx = hash
      · obtain ⟨j, target, vacant⟩ := vacancy
        have used := visit_all hashBound bound last visited valid j target
        rw [vacant] at used
        cases used
      · simp only [if_true, last, if_false]
        exact ih _ (next_lt bound) (visit_next hashBound bound last visited valid)

/-- A cluster meets one of the three orders. -/
theorem hole_ordered (h : Hole xClass nElem data empty idxStart hole) :
    (idxStart ≤ hole ∧ hole ≤ prev nElem empty) ∨ (prev nElem empty ≤ idxStart ∧ idxStart ≤ hole) ∨
      (hole ≤ prev nElem empty ∧ prev nElem empty ≤ idxStart) := by
  have started := h.started
  have inside := h.inside
  have startBound := h.startBound
  have holeBound := h.holeBound
  have origin := h.origin
  rw [dist_eq_ite origin startBound] at started inside
  rw [dist_eq_ite origin holeBound] at inside
  rw [prev_eq_ite origin]
  split_ifs at started inside ⊢ <;> omega

/-- The assertion of a deletion holds. -/
theorem deleteFails_false (lawful : xClass.Lawful content) (fuel : Nat) :
    ∀ (data : Nat → Elem) (idxStart hole : Nat), Hole xClass nElem data empty idxStart hole →
      deleteFails xClass nElem fuel data idxStart hole (prev nElem empty) = false := by
  induction fuel with
  | zero => exact fun _ _ _ _ => rfl
  | succ fuel ih =>
    intro data idxStart hole h
    obtain ⟨wide, rest⟩ := h.round lawful
    have ordered := hole_ordered wide
    unfold deleteFails
    dsimp only [xIndexNext_eq, xIndexPrev_eq] at ordered ⊢
    rw [if_pos ordered]
    rcases rest with ⟨notFound, -⟩ | ⟨found, -, -, moved⟩
    · rw [if_pos notFound]
    · rw [if_neg found]
      exact ih _ _ _ moved

/-- Removing the slot of an entry fails no assertion. -/
theorem removeSlotChecked_returns (lawful : area.Lawful xClass content key xCalcHash nElem)
    (classLawful : xClass.Lawful content) (bound : idx < nElem)
    (valid : xClass.xElemIsValid (area.pElement idx) = true) (debug : Bool) :
    emptyFails xClass nElem area.pElement (home xClass area.pElement idx) nElem
        (xIndexNext nElem idx) = false ∧
      removeSlotChecked xClass nElem debug area (home xClass area.pElement idx) idx =
        .returns (removeSlot xClass nElem area (home xClass area.pElement idx) idx) := by
  have hole := hole_of_emptyLoop lawful.reach lawful.vacancy bound valid
  obtain ⟨homeBound, path⟩ := lawful.reach idx bound valid
  have before : ∀ j < nElem, dist nElem (home xClass area.pElement idx) j <
      dist nElem (home xClass area.pElement idx) idx →
      xClass.xElemIsValid (area.pElement j) = true := fun j target near => path j target near.le
  have open_ : next nElem idx ≠ home xClass area.pElement idx := by
    intro closed
    obtain ⟨j, target, vacant⟩ := lawful.vacancy
    have used := visit_all homeBound bound closed before valid j target
    rw [vacant] at used
    cases used
  have finds : emptyFails xClass nElem area.pElement (home xClass area.pElement idx) nElem
      (xIndexNext nElem idx) = false :=
    emptyFails_false homeBound lawful.vacancy nElem _ (next_lt bound)
      (visit_next homeBound bound open_ before valid)
  have deletes := deleteFails_false classLawful nElem _ _ _ hole
  rw [xIndexNext_eq] at finds ⊢
  refine ⟨finds, ?_⟩
  unfold removeSlotChecked Outcome.check
  dsimp only
  rw [xIndexNext_eq, xIndexPrev_eq, finds, deletes]
  simp only [Bool.not_false, Bool.not_true, Bool.and_false, Bool.false_eq_true, if_false]

/-- The walk back arrives at slot zero exactly when all slots up to it are used. -/
theorem procStartFails_iff (fuel : Nat) :
    ∀ idx < nElem, 0 < idx → idx ≤ fuel → (procStartFails xClass nElem area fuel idx = true ↔
      ∀ j ≤ idx, 0 < j → xClass.xElemIsValid (area.pElement j) = true) := by
  induction fuel with
  | zero =>
    intro idx _ positive enough
    omega
  | succ fuel ih =>
    intro idx bound positive enough
    have back : xIndexPrev nElem idx = idx - 1 := by
      rw [xIndexPrev_eq, prev_eq_ite bound, if_neg (by omega)]
    unfold procStartFails
    rw [back]
    cases valid : xClass.xElemIsValid (area.pElement idx) with
    | false =>
      simp only [Bool.false_eq_true, if_false, false_iff]
      intro used
      rw [used idx (Nat.le_refl _) positive] at valid
      cases valid
    | true =>
      have extend : (∀ j ≤ idx - 1, 0 < j → xClass.xElemIsValid (area.pElement j) = true) ↔
          ∀ j ≤ idx, 0 < j → xClass.xElemIsValid (area.pElement j) = true := by
        refine ⟨fun used j upTo above => ?_, fun used j upTo above => used j (by omega) above⟩
        by_cases here : j = idx
        · rw [here]
          exact valid
        · exact used j (by omega) above
      rw [← extend]
      by_cases first : idx - 1 = 0
      · simp only [first, if_true, true_iff]
        intro j upTo above
        omega
      · simp only [first, if_true, if_false]
        exact ih (idx - 1) (by omega) (by omega) (by omega)

variable {slot : Nat → LockArea Elem → LockArea Elem} {start : Nat}
  {visit : Nat → LockArea Elem → Outcome (LockArea Elem)} {P : LockArea Elem → Prop}

section

variable (work : ∀ idx < nElem, ∀ area, P area →
  visit idx area = .returns (slot idx area) ∧ P (slot idx area))

include work

/-- If the work returns, so does the way around. -/
theorem ringLoop_returns (origin : start < nElem) {left : Nat} :
    ∀ {fuel idx : Nat} {area : LockArea Elem}, P area → idx < nElem → idx ≠ start →
      dist nElem start idx ≤ fuel → dist nElem start idx ≤ left →
      ringLoop nElem visit start fuel idx area =
        .returns (procLoop nElem slot start left idx area) := by
  induction left with
  | zero =>
    intro fuel idx area _ bound apart _ enough
    exact absurd ((dist_eq_zero origin bound).1 (Nat.le_zero.1 enough)) apart
  | succ left ih =>
    intro fuel idx area holds bound apart enough enough'
    have away : dist nElem start idx ≠ 0 := fun zero => apart ((dist_eq_zero origin bound).1 zero)
    have back := dist_prev origin bound apart
    obtain ⟨fuel, rfl⟩ : ∃ less, fuel = less + 1 := ⟨fuel - 1, by omega⟩
    obtain ⟨returns, kept⟩ := work idx bound area holds
    rw [ringLoop, returns, Outcome.andThen_returns, procLoop]
    by_cases closed : xIndexPrev nElem idx = start
    · simp only [closed, if_true]
    · simp only [closed, if_false]
      exact ih kept (prev_lt bound) closed
        (by rw [xIndexPrev_eq]; omega) (by rw [xIndexPrev_eq]; omega)

/-- If the work at every slot returns, so does the release. -/
theorem releaseAll_returns (holds : P area) (two : 2 ≤ nElem)
    (origin : procStartLoop xClass nElem area nElem (nElem - 1) < nElem) {fuel : Nat}
    (enough : nElem ≤ fuel) : releaseAll xClass nElem false fuel visit area =
      .returns (unlockProcCore xClass nElem slot area) := by
  unfold releaseAll unlockProcCore
  rw [Outcome.check_false]
  generalize procStartLoop xClass nElem area nElem (nElem - 1) = start at origin
  obtain ⟨fuel, rfl⟩ : ∃ less, fuel = less + 1 := ⟨fuel - 1, by omega⟩
  obtain ⟨left, sized⟩ : ∃ less, nElem = less + 1 := ⟨nElem - 1, by omega⟩
  obtain ⟨returns, kept⟩ := work start origin area holds
  have around : procLoop nElem slot start nElem start area =
      procLoop nElem slot start (left + 1) start area := by rw [← sized]
  have apart : xIndexPrev nElem start ≠ start := by
    rw [xIndexPrev_eq, prev_eq_ite origin]
    split_ifs <;> omega
  have farthest := dist_prev_self origin
  rw [around, ringLoop, returns, Outcome.andThen_returns, procLoop]
  simp only [apart, if_false]
  exact ringLoop_returns work origin kept (prev_lt origin) apart
    (by rw [xIndexPrev_eq]; omega) (by rw [xIndexPrev_eq]; omega)

end

/-- What the work keeps, the way around keeps. -/
theorem ringLoop_safe (work : ∀ idx < nElem, ∀ area, P area → (visit idx area).Safe P) (start : Nat)
    (fuel : Nat) : ∀ idx < nElem, ∀ area, P area →
      (ringLoop nElem visit start fuel idx area).Safe P := by
  induction fuel with
  | zero => exact fun _ _ _ _ => trivial
  | succ fuel ih =>
    intro idx bound area holds
    apply (work idx bound area holds).andThen
    intro area' holds'
    dsimp only
    split_ifs
    · exact holds'
    · exact ih _ (prev_lt bound) area' holds'

/-- A release fails an assertion exactly when all slots but slot zero are used. -/
theorem releaseAll_asserts_iff (two : 2 ≤ nElem)
    (work : ∀ idx < nElem, ∀ area, P area → (visit idx area).Safe P) (holds : P area)
    (origin : procStartLoop xClass nElem area nElem (nElem - 1) < nElem) (fuel : Nat) :
    releaseAll xClass nElem true fuel visit area = .asserts ↔
      ∀ j < nElem, 0 < j → xClass.xElemIsValid (area.pElement j) = true := by
  have walk : procStartFails xClass nElem area nElem (nElem - 1) = true ↔
      ∀ j ≤ nElem - 1, 0 < j → xClass.xElemIsValid (area.pElement j) = true :=
    procStartFails_iff nElem (nElem - 1) (by omega) (by omega) (by omega)
  have last : (∀ j ≤ nElem - 1, 0 < j → xClass.xElemIsValid (area.pElement j) = true) ↔
      ∀ j < nElem, 0 < j → xClass.xElemIsValid (area.pElement j) = true :=
    ⟨fun used j below => used j (by omega), fun used j upTo => used j (by omega)⟩
  rw [← last, ← walk]
  unfold releaseAll
  cases procStartFails xClass nElem area nElem (nElem - 1) with
  | true => exact iff_of_true rfl rfl
  | false =>
    have safe := ringLoop_safe work (procStartLoop xClass nElem area nElem (nElem - 1)) fuel _
      origin area holds
    exact iff_of_false safe.ne_asserts Bool.false_ne_true

end Assertions

section Rows

variable {cfg : RowConfig} {area : RowArea}

/-- Unlocking a row fails no assertion. -/
theorem unlockRecord_safe (lawful : area.Lawful cfg) (debug : Bool) (iTable : RootPage)
    (rowid : Int) : unlockRecord cfg debug area iTable.1 rowid =
      .returns (sqlite3rowlockIpcUnlockRecord cfg area iTable.1 rowid) := by
  unfold unlockRecord sqlite3rowlockIpcUnlockRecord
  dsimp only
  split_ifs
  · cases found : rowSearch cfg area iTable.1 rowid with
    | found idx =>
      obtain ⟨bound, key⟩ := (lawful.rowSearch_found_iff iTable.2).1 found
      obtain ⟨table, row⟩ := Prod.mk.inj key
      have valid : rowClass.xElemIsValid (area.pElement idx) = true := by
        simpa [rowClass, table] using iTable.2
      have hashed : home rowClass area.pElement idx = cfg.xCalcHash iTable.1 rowid := by
        rw [← table, ← row]
        exact lawful.hashed idx bound valid
      rw [← hashed]
      exact (removeSlotChecked_returns lawful rowClass_lawful bound valid debug).2
    | free | full => rfl
  · rfl

/-- Every unlock removes an entry, so the loop ends. -/
theorem rowSlot_returns {idx : Nat} (bound : idx < cfg.nElement) {pHandle : Handle}
    {test : RowArea → Bool}
    (tests : ∀ area, test area = true ↔ rowClass.xElemIsValid (area.pElement idx) = true ∧
      (area.pElement idx).releasedBy pHandle) {fuel : Nat} :
    ∀ {left : Nat} {area : RowArea}, area.Lawful cfg → Multiset.card (area.entries cfg) < fuel →
      Multiset.card (area.entries cfg) < left →
      Outcome.whileLoop test (fun area => unlockRecord cfg false area (area.pElement idx).iTable
          (area.pElement idx).rowid) fuel area =
        .returns (recordSlotLoop cfg pHandle idx left area) ∧
      RowArea.Lawful cfg (recordSlotLoop cfg pHandle idx left area) := by
  induction fuel with
  | zero => exact fun _ few => absurd few (Nat.not_lt_zero _)
  | succ fuel ih =>
    intro left area lawful few few'
    obtain ⟨left, rfl⟩ : ∃ less, left = less + 1 := ⟨left - 1, by omega⟩
    rw [Outcome.whileLoop, recordSlotLoop]
    by_cases enters : test area = true
    · obtain ⟨valid, released⟩ := (tests area).1 enters
      have nonzero : (area.pElement idx).iTable ≠ 0 := by
        simpa only [rowClass, decide_eq_true_eq] using valid
      have member : area.pElement idx ∈ area.entries cfg :=
        RowArea.mem_entries.2 ⟨idx, bound, rfl, nonzero⟩
      obtain ⟨lawful', split⟩ := lawful.unlock member
      have fewer := congrArg Multiset.card split
      rw [Multiset.card_cons] at fewer
      have unlocks := unlockRecord_safe lawful false ⟨_, nonzero⟩ (area.pElement idx).rowid
      dsimp only at unlocks
      rw [if_pos enters, if_pos ⟨valid, released⟩, unlocks, Outcome.andThen_returns]
      exact ih lawful' (by omega) (by omega)
    · have stays : ¬ (rowClass.xElemIsValid (area.pElement idx) = true ∧
          (pHandle.pid = 0 ∨ (area.pElement idx).pid = pHandle.pid) ∧
          (pHandle.owner = 0 ∨ (area.pElement idx).owner = pHandle.owner)) :=
        fun here => enters ((tests area).2 here)
      rw [if_neg enters, if_neg stays]
      exact ⟨rfl, lawful⟩

/-- The work at one slot fails no assertion. -/
theorem recordProcSlot_safe (pHandle : Handle) (fuel idx : Nat) (lawful : area.Lawful cfg) :
    (recordProcSlot cfg true pHandle fuel idx area).Safe (RowArea.Lawful cfg) := by
  refine Outcome.Safe.whileLoop (fun area lawful enters => ?_) fuel area lawful
  have valid := (Bool.and_eq_true_iff.1 enters).1
  have nonzero : (area.pElement idx).iTable ≠ 0 := by simpa [rowClass] using valid
  rw [unlockRecord_safe lawful true ⟨_, nonzero⟩]
  exact RowLockTable.unlock_lawful ⟨area, lawful⟩ ⟨_, nonzero⟩ _

/-- The release of a handle's row locks ends. -/
theorem unlockRecordProc_returns (lawful : area.Lawful cfg) (pHandle : Handle) {fuel : Nat}
    (enough : cfg.nElement ≤ fuel) : unlockRecordProc cfg false fuel pHandle area =
      .returns (sqlite3rowlockIpcUnlockRecordProc cfg pHandle area) := by
  obtain ⟨origin, -⟩ := lawful.procStartLoop_spec cfg.nElement (cfg.nElement - 1)
    (by have := cfg.two_le; omega) (by have := cfg.two_le; omega) (by omega)
    (fun j target later => by omega)
  have work : ∀ idx < cfg.nElement, ∀ area : RowArea, area.Lawful cfg →
      recordProcSlot cfg false pHandle fuel idx area =
          .returns (recordSlotLoop cfg pHandle idx cfg.nElement area) ∧
        RowArea.Lawful cfg (recordSlotLoop cfg pHandle idx cfg.nElement area) := by
    intro idx bound area lawful
    have few : Multiset.card (area.entries cfg) < cfg.nElement := lawful.counted ▸ lawful.room
    refine rowSlot_returns bound (fun area => ?_) lawful (by omega) few
    rw [Bool.and_eq_true_iff, decide_eq_true_iff]
  exact releaseAll_returns work lawful cfg.two_le origin enough

end Rows

section Tables

variable {cfg : TableConfig} {area : TableArea}

/-- Unlocking a table fails no assertion. -/
theorem unlockTableCore_safe (lawful : area.Lawful cfg) (debug : Bool) (pHandle : Handle)
    (iTable : RootPage) (mode : UnlockMode) :
    unlockTableCore cfg debug pHandle area iTable.1 mode =
      .returns (sqlite3rowlockIpcUnlockTableCore cfg pHandle area iTable.1 mode) := by
  unfold unlockTableCore sqlite3rowlockIpcUnlockTableCore
  dsimp only
  split_ifs
  · have spec := rowlockIpcSearch_spec tableClass area.pElement (tablelockTarget pHandle iTable.1)
      (cfg.hash_lt iTable.1)
    cases found : rowlockIpcSearch tableClass cfg.nElement area.pElement
        (tablelockTarget pHandle iTable.1) (cfg.xCalcHash iTable.1) with
    | found idx =>
      rw [found] at spec
      obtain ⟨bound, valid, hit⟩ := spec
      obtain ⟨owner, -, has⟩ := (lawful.isTarget_iff bound valid).1 hit
      have hashed : home tableClass area.pElement idx = cfg.xCalcHash iTable.1 := lawful.hash_eq has
      obtain ⟨finds, removes⟩ :=
        removeSlotChecked_returns lawful.ring tableClass_lawful bound valid debug
      rw [hashed] at finds removes
      dsimp only
      split_ifs
      · exact removes
      · rw [finds]
        cases debug <;> rfl
    | free | full => rfl
  · rfl

/-- The work at one slot fails no assertion. -/
theorem tableProcSlot_safe (pHandle : Handle) (pid : Nat) (mode : UnlockMode) (fuel idx : Nat) :
    ∀ area : TableArea, area.Lawful cfg →
      (tableProcSlot cfg true pHandle pid mode fuel idx area).Safe (TableArea.Lawful cfg) := by
  induction fuel with
  | zero => exact fun _ _ => trivial
  | succ fuel ih =>
    intro area lawful
    unfold tableProcSlot
    by_cases enters : tableClass.xElemIsValid (area.pElement idx) = true ∧
        (pid = 0 ∨ (area.pElement idx).pid = pid) ∧
        (pHandle.owner = 0 ∨ (area.pElement idx).owner = pHandle.owner)
    · have nonzero := tableClass_valid_iff.1 enters.1
      rw [if_pos enters, unlockTableCore_safe lawful true pHandle ⟨_, nonzero⟩ mode]
      have kept := (lawful.unlockTable_outcome pHandle ⟨_, nonzero⟩ mode).lawful lawful
      dsimp only [Outcome.andThen_returns]
      split_ifs
      · exact kept
      · exact ih _ kept
    · rw [if_neg enters]
      exact lawful

end Tables

section Reachable

variable {Key : Type}

/-- After any calls, the release of a handle's row locks ends. It takes exactly the entries that the
handle stands for, keeps every other entry, each of them found by its row, and the count is theirs.
-/
theorem unlockRecordProc_releases_exactly (cfg : Config Key) (calls : List (StoreCall Key))
    (pHandle : Handle) :
    let area := (Stores.after cfg calls).rows
    ∃ area', (∀ fuel ≥ cfg.row.nElement, unlockRecordProc cfg.row false fuel pHandle area =
        .returns area') ∧
      area'.entries cfg.row = (area.entries cfg.row).filter (fun elem => ¬ elem.releasedBy pHandle) ∧
      (∀ elem ∈ area'.entries cfg.row, ∃ idx,
        rowSearch cfg.row area' elem.iTable elem.rowid = .found idx ∧ area'.pElement idx = elem) ∧
      area'.count = Multiset.card (area'.entries cfg.row) := by
  intro area
  have lawful : area.Lawful cfg.row := (Stores.after_lawful cfg calls).rows
  obtain ⟨lawful', kept⟩ := lawful.unlockProc pHandle
  refine ⟨sqlite3rowlockIpcUnlockRecordProc cfg.row pHandle area,
    fun fuel enough => unlockRecordProc_returns lawful pHandle enough, kept, ?_, lawful'.counted⟩
  intro elem member
  obtain ⟨idx, bound, same, nonzero⟩ := RowArea.mem_entries.1 member
  refine ⟨idx, (lawful'.rowSearch_found_iff nonzero).2 ⟨bound, ?_⟩, same⟩
  rw [same]
  rfl

/-- After any calls, the assertions that some slot is empty hold in the unlocks and releases of row
locks exactly when a slot other than slot zero is empty, and likewise for table locks. -/
theorem empty_slot_asserts_hold_iff (cfg : Config Key) (calls : List (StoreCall Key)) :
    let rows := (Stores.after cfg calls).rows
    let tables := (Stores.after cfg calls).tables
    ((∀ (iTable : RootPage) rowid, unlockRecord cfg.row true rows iTable.1 rowid ≠ .asserts) ∧
        (∀ pHandle fuel, unlockRecordProc cfg.row true fuel pHandle rows ≠ .asserts) ↔
      ∃ idx < cfg.row.nElement, 0 < idx ∧ rowClass.xElemIsValid (rows.pElement idx) = false) ∧
    ((∀ pHandle (iTable : RootPage) mode,
          unlockTableCore cfg.table true pHandle tables iTable.1 mode ≠ .asserts) ∧
        (∀ pHandle pid mode fuel,
          unlockTablesProcCore cfg.table true fuel pHandle pid mode tables ≠ .asserts) ↔
      ∃ idx < cfg.table.nElement, 0 < idx ∧
        tableClass.xElemIsValid (tables.pElement idx) = false) := by
  intro rows tables
  have lawful := Stores.after_lawful cfg calls
  have rowLawful : rows.Lawful cfg.row := lawful.rows
  have tableLawful : tables.Lawful cfg.table := lawful.tables
  constructor
  · have two := cfg.row.two_le
    obtain ⟨origin, -⟩ := rowLawful.procStart_spec two
    have release : ∀ pHandle fuel, unlockRecordProc cfg.row true fuel pHandle rows = .asserts ↔
        ∀ j < cfg.row.nElement, 0 < j → rowClass.xElemIsValid (rows.pElement j) = true :=
      fun pHandle fuel => releaseAll_asserts_iff two
        (fun idx _ area lawful => recordProcSlot_safe pHandle fuel idx lawful) rowLawful origin fuel
    refine ⟨fun ⟨_, quiet⟩ => ?_, fun ⟨idx, bound, above, vacant⟩ =>
      ⟨fun iTable rowid => ?_, fun pHandle fuel asserts => ?_⟩⟩
    · by_contra full
      push Not at full
      exact quiet ⟨0, 0⟩ 0 ((release _ _).2 fun j below above => by simpa using full j below above)
    · rw [unlockRecord_safe rowLawful]
      exact nofun
    · have used := (release pHandle fuel).1 asserts idx bound above
      rw [vacant] at used
      cases used
  · have two := cfg.table.two_le
    obtain ⟨origin, -⟩ := tableLawful.ring.procStart_spec two
    have release : ∀ pHandle pid mode fuel,
        unlockTablesProcCore cfg.table true fuel pHandle pid mode tables = .asserts ↔
        ∀ j < cfg.table.nElement, 0 < j → tableClass.xElemIsValid (tables.pElement j) = true :=
      fun pHandle pid mode fuel => releaseAll_asserts_iff two
        (fun idx _ area lawful => tableProcSlot_safe pHandle pid mode fuel idx area lawful)
        tableLawful origin fuel
    refine ⟨fun ⟨_, quiet⟩ => ?_, fun ⟨idx, bound, above, vacant⟩ =>
      ⟨fun pHandle iTable mode => ?_, fun pHandle pid mode fuel asserts => ?_⟩⟩
    · by_contra full
      push Not at full
      exact quiet ⟨0, 0⟩ 0 .trans 0
        ((release _ _ _ _).2 fun j below above => by simpa using full j below above)
    · rw [unlockTableCore_safe tableLawful]
      exact nofun
    · have used := (release pHandle pid mode fuel).1 asserts idx bound above
      rw [vacant] at used
      cases used

/-- With slot zero the only empty one, the end of the transaction that holds the other slot fails
the assertion. -/
theorem empty_slot_assert_fails :
    let stores := Stores.after smallConfig [.lockRecord connA tableTwo 7,
      .table (.lock connA ⟨3, by decide⟩ .write .normal)]
    rowClass.xElemIsValid (stores.rows.pElement 0) = false ∧
      unlockRecordProc smallConfig.row true 2 connA.1 stores.rows = .asserts ∧
      tableClass.xElemIsValid (stores.tables.pElement 0) = false ∧
      unlockTablesProcCore smallConfig.table true 2 connA.1 connA.1.pid .trans stores.tables =
        .asserts := by
  refine ⟨by decide, ?_, by decide, ?_⟩
  · rfl
  · rfl

end Reachable

end SQLumDash.Cleaner
