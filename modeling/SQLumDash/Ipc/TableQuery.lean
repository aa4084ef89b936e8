import SQLumDash.Ipc.TableCompat
import SQLumDash.Ipc.TableLevel

/-!
# What a connection sees while it only asks for more

A lock request never removes an entry: the query keeps reporting the same entry, and a forced
request is answered as before.
-/

namespace SQLumDash.Ipc

open Probing Runs Function

/-- A search ends at its entry also when other slots are filled. -/
theorem searchLoop_found_mono {Elem : Type} {xClass : IpcClass Elem} {nElem : Nat}
    {data data' : Nat → Elem} {target : Elem} {hash j : Nat}
    (grows : ∀ idx, xClass.xElemIsValid (data idx) = true → xClass.xElemIsValid (data' idx) = true ∧
      xClass.xElemIsTarget (data' idx) target = xClass.xElemIsTarget (data idx) target)
    (fuel : Nat) :
    ∀ idx, searchLoop xClass nElem data target hash fuel idx = .found j →
      searchLoop xClass nElem data' target hash fuel idx = .found j := by
  induction fuel with
  | zero => exact fun _ found => nomatch found
  | succ fuel ih =>
    intro idx found
    unfold searchLoop at found ⊢
    cases valid : xClass.xElemIsValid (data idx) with
    | false =>
      simp only [valid, Bool.false_eq_true, if_false] at found
      cases found
    | true =>
      obtain ⟨valid', same⟩ := grows idx valid
      simp only [valid, if_true] at found
      simp only [valid', if_true, same]
      split_ifs at found ⊢
      · exact found
      · exact ih _ found

namespace TableArea

variable {cfg : TableConfig} {area area' area'' : TableArea} {conn other : Conn}
  {iTable table : RootPage} {eLock : TableLock} {mode : LockMode} {idx : Nat}
  {result : Rc × TableArea × Option TableLock}

/-- Requests of one connection: entries stay, those of others unchanged. -/
structure Grows (cfg : TableConfig) (conn : Conn) (area area' : TableArea) : Prop where
  lawful : area'.Lawful cfg
  key : ∀ idx, tableClass.xElemIsValid (area.pElement idx) = true →
    (area'.pElement idx).key = (area.pElement idx).key
  others : ∀ idx, tableClass.xElemIsValid (area.pElement idx) = true →
    ¬ (area.pElement idx).heldBy conn.1 → area'.pElement idx = area.pElement idx
  entries : ∀ other, other ≠ conn → ∀ iTable idx, area'.HasAt cfg other iTable idx →
    area.HasAt cfg other iTable idx

namespace Grows

/-- Nothing happened. -/
theorem refl (lawful : area.Lawful cfg) : Grows cfg conn area area :=
  ⟨lawful, fun _ _ => rfl, fun _ _ _ => rfl, fun _ _ _ _ has => has⟩

section

variable (grows : Grows cfg conn area area')
  (used : tableClass.xElemIsValid (area.pElement idx) = true)

include grows used

/-- Used slots stay used. -/
theorem valid : tableClass.xElemIsValid (area'.pElement idx) = true := by
  have same : (area'.pElement idx).iTable = (area.pElement idx).iTable :=
    congrArg Prod.fst (grows.key idx used)
  rw [tableClass_valid_iff, same]
  exact tableClass_valid_iff.1 used

/-- Entries keep their holder. -/
theorem heldBy_iff {pHandle : Handle} :
    (area'.pElement idx).heldBy pHandle ↔ (area.pElement idx).heldBy pHandle := by
  have same : (⟨(area'.pElement idx).pid, (area'.pElement idx).owner⟩ : Handle) =
      ⟨(area.pElement idx).pid, (area.pElement idx).owner⟩ := congrArg Prod.snd (grows.key idx used)
  rw [TableElement.heldBy_iff, TableElement.heldBy_iff]
  exact Eq.congr_left same

end

/-- One growth after another. -/
theorem trans (first : Grows cfg conn area area') (second : Grows cfg conn area' area'') :
    Grows cfg conn area area'' where
  lawful := second.lawful
  key idx used := (second.key idx (first.valid used)).trans (first.key idx used)
  others idx used foreign := by
    rw [second.others idx (first.valid used) fun held => foreign ((first.heldBy_iff used).1 held),
      first.others idx used foreign]
  entries other apart iTable idx has :=
    first.entries other apart iTable idx (second.entries other apart iTable idx has)

/-- The connection's own entries stay. -/
theorem hasAt (grows : Grows cfg conn area area') (has : area.HasAt cfg other iTable idx) :
    area'.HasAt cfg other iTable idx :=
  ⟨has.1, (grows.key idx has.valid).trans has.2⟩

end Grows

/-- Every request of the connection. -/
theorem LockOutcome.grows (outcome : area.LockOutcome cfg conn iTable eLock mode result)
    (lawful : area.Lawful cfg) : Grows cfg conn area result.2.1 where
  lawful := outcome.lawful lawful
  key j used := by
    by_cases mine : area.HasAt cfg conn iTable j
    · -- Only the connection's own entry for the table is written, under the same key.
      have written : ∀ {elem : TableElement} {slot : Nat}, elem.key = (iTable.1, conn.1) →
          (update area.pElement slot elem j).key = (area.pElement j).key := by
        intro elem slot key
        by_cases here : j = slot
        · rw [here, update_self, key, ← here, mine.2]
        · rw [update_of_ne here]
      cases outcome with
      | held | refused | nomem => rfl
      | force own => exact written own.2
      | upgraded | added => exact written rfl
    · rw [outcome.frame used mine]
  others j used foreign := outcome.frame used fun mine => foreign mine.heldBy
  entries other apart table j has := outcome.hasAt_of_hasAt (fun same => apart same.1) has

/-- A request ends at its entry also when other slots are filled. -/
theorem lockTableLoop_mono {data data' : Nat → TableElement} {pHandle : Handle} {root : Int}
    (grows : ∀ idx, tableClass.xElemIsValid (data idx) = true →
      tableClass.xElemIsValid (data' idx) = true ∧ (data' idx).verdict pHandle root eLock mode =
        (data idx).verdict pHandle root eLock mode) (fuel : Nat) :
    ∀ (idx : Nat) (own : Option Nat),
      (∀ stop last, lockTableLoop cfg data pHandle root eLock mode fuel idx own ≠ .stop stop last) →
      lockTableLoop cfg data' pHandle root eLock mode fuel idx own =
        lockTableLoop cfg data pHandle root eLock mode fuel idx own := by
  induction fuel with
  | zero => exact fun _ _ _ => rfl
  | succ fuel ih =>
    intro idx own ends
    unfold lockTableLoop at ends ⊢
    cases valid : tableClass.xElemIsValid (data idx) with
    | false =>
      simp only [valid, Bool.false_eq_true, if_false] at ends
      exact absurd rfl (ends idx own)
    | true =>
      obtain ⟨valid', same⟩ := grows idx valid
      simp only [valid, if_true] at ends
      simp only [valid', if_true, same]
      cases verdict : (data idx).verdict pHandle root eLock mode with
      | force | held | refuse => rfl
      | pass | own =>
        simp only [verdict] at ends ⊢
        by_cases closed : xIndexNext cfg.nElement idx = cfg.xCalcHash root
        · simp only [closed, if_true]
        · simp only [closed, if_false] at ends ⊢
          exact ih _ _ ends

/-- An entry in the way of a forced request comes before the requester's own. -/
def Blocked (cfg : TableConfig) (area : TableArea) (conn : Conn) (iTable : RootPage)
    (eLock : TableLock) : Prop :=
  ∃ own j, area.HasAt cfg conn iTable own ∧ area.RefusedAt cfg conn iTable eLock .force j ∧
    dist cfg.nElement (cfg.xCalcHash iTable.1) j < dist cfg.nElement (cfg.xCalcHash iTable.1) own

section

variable (lawful : area.Lawful cfg) (has : area.HasAt cfg conn iTable idx)

include lawful has

/-- The slots from the hash to an entry are used. -/
theorem Lawful.path_valid {j : Nat} (target : j < cfg.nElement)
    (near : dist cfg.nElement (cfg.xCalcHash iTable.1) j ≤
      dist cfg.nElement (cfg.xCalcHash iTable.1) idx) :
    tableClass.xElemIsValid (area.pElement j) = true := by
  by_contra vacant
  have before := lawful.before_vacant has.1 has.iTable_eq target (Bool.eq_false_iff.2 vacant)
  omega

/-- A forced request comes to the own entry unless blocked. -/
theorem Lawful.forced_loop (eLock : TableLock) (fuel : Nat) : ∀ start < cfg.nElement,
      cfg.nElement - dist cfg.nElement (cfg.xCalcHash iTable.1) start ≤ fuel →
      dist cfg.nElement (cfg.xCalcHash iTable.1) start ≤
        dist cfg.nElement (cfg.xCalcHash iTable.1) idx →
      (∀ j < cfg.nElement, dist cfg.nElement (cfg.xCalcHash iTable.1) j <
        dist cfg.nElement (cfg.xCalcHash iTable.1) start →
          ¬ area.RefusedAt cfg conn iTable eLock .force j) →
      let found := lockTableLoop cfg area.pElement conn.1 iTable.1 eLock .force fuel start none
      found = .force idx ∧ ¬ area.Blocked cfg conn iTable eLock ∨
        found = .refused ∧ area.Blocked cfg conn iTable eLock := by
  have hashBound := cfg.hash_lt iTable.1
  induction fuel with
  | zero =>
    intro start bound enough
    have short := dist_lt (a := cfg.xCalcHash iTable.1) bound
    omega
  | succ fuel ih =>
    intro start bound enough near clear
    have valid := lawful.path_valid has bound near
    have spec := (area.pElement start).verdict_spec conn.1 iTable.1 eLock .force
    unfold lockTableLoop
    simp only [valid, if_true]
    cases verdict : (area.pElement start).verdict conn.1 iTable.1 eLock .force with
    | pass =>
      rw [verdict] at spec
      simp only [reduceCtorEq, if_false]
      have away : start ≠ idx := by
        rintro rfl
        exact (spec has.iTable_eq).1 has.heldBy
      have short := dist_lt (a := cfg.xCalcHash iTable.1) has.1
      have apart : dist cfg.nElement (cfg.xCalcHash iTable.1) start ≠
          dist cfg.nElement (cfg.xCalcHash iTable.1) idx :=
        fun same => away (dist_inj hashBound bound has.1 same)
      have last : xIndexNext cfg.nElement start ≠ cfg.xCalcHash iTable.1 := by
        intro closed
        have zero := (dist_eq_zero hashBound (next_lt bound)).2 closed
        rw [dist_next hashBound bound] at zero
        split_ifs at zero
        omega
      have step : dist cfg.nElement (cfg.xCalcHash iTable.1) (xIndexNext cfg.nElement start) = _ :=
        dist_next_of_ne hashBound bound last
      have notHere : ¬ area.RefusedAt cfg conn iTable eLock .force start :=
        fun refused => (spec refused.2.1).2 refused.2.2.2
      rw [if_neg last]
      refine ih _ (next_lt bound) ?_ ?_ (visit_next hashBound bound last clear notHere)
      · rw [step]
        omega
      · rw [step]
        omega
    | own | held =>
      rw [verdict] at spec
      exact absurd rfl spec.2.2.2
    | force =>
      rw [verdict] at spec
      have here : start = idx :=
        lawful.hasAt_unique (hasAt_iff.2 ⟨bound, spec.1, spec.2.1⟩) has
      subst here
      refine Or.inl ⟨rfl, ?_⟩
      rintro ⟨own, j, mine, refused, before⟩
      rw [lawful.hasAt_unique mine has] at before
      exact clear j refused.1 before refused
    | refuse =>
      rw [verdict] at spec
      refine Or.inr ⟨rfl, idx, start, has, ⟨bound, spec⟩, Nat.lt_of_le_of_ne near fun same => ?_⟩
      rw [dist_inj hashBound bound has.1 same] at spec
      exact spec.2.1 has.heldBy

/-- The scan of a forced request. -/
theorem Lawful.forced_scan (eLock : TableLock) :
    let found := lockTableLoop cfg area.pElement conn.1 iTable.1 eLock .force cfg.nElement
      (cfg.xCalcHash iTable.1) none
    found = .force idx ∧ ¬ area.Blocked cfg conn iTable eLock ∨
      found = .refused ∧ area.Blocked cfg conn iTable eLock := by
  have hashBound := cfg.hash_lt iTable.1
  have zero := (dist_eq_zero hashBound hashBound).2 rfl
  refine lawful.forced_loop has eLock cfg.nElement _ hashBound (Nat.sub_le _ _) ?_ fun j _ near => ?_
  · rw [zero]
    exact Nat.zero_le _
  · rw [zero] at near
    exact absurd near (Nat.not_lt_zero _)

/-- It is granted unless blocked. -/
theorem Lawful.forced_granted_iff (eLock : TableLock) :
    (sqlite3rowlockIpcLockTable cfg conn.1 area iTable.1 eLock .force).1 = .ok ↔
      ¬ area.Blocked cfg conn iTable eLock := by
  unfold sqlite3rowlockIpcLockTable
  rcases lawful.forced_scan has eLock with ⟨found, free⟩ | ⟨found, blocked⟩
  · rw [found]
    exact ⟨fun _ => free, fun _ => rfl⟩
  · rw [found]
    exact ⟨(fun granted => nomatch granted), fun free => absurd blocked free⟩

end

/-- The level does not matter for what is in the way. -/
theorem blocked_uniform (normal : iTable.1 ≠ schemaRoot) (eLock eLock' : TableLock) :
    area.Blocked cfg conn iTable eLock ↔ area.Blocked cfg conn iTable eLock' := by
  have same : ∀ j, area.RefusedAt cfg conn iTable eLock .force j ↔
      area.RefusedAt cfg conn iTable eLock' .force j := by
    intro j
    refine and_congr_right fun _ => and_congr_right fun table => and_congr_right fun _ => ?_
    have other : ¬ (area.pElement j).iTable = schemaRoot := fun same => normal (table ▸ same)
    unfold TableElement.refuses
    simp only [other, if_false, reduceCtorEq, false_and, or_false]
  unfold Blocked
  simp only [same]

/-- The answer to a forced request does not change. -/
theorem Grows.forced_answer (grows : Grows cfg conn area area') (lawful : area.Lawful cfg)
    (has : area.HasAt cfg conn iTable idx) (eLock : TableLock) :
    (sqlite3rowlockIpcLockTable cfg conn.1 area' iTable.1 eLock .force).1 =
      (sqlite3rowlockIpcLockTable cfg conn.1 area iTable.1 eLock .force).1 := by
  have verdict : ∀ j, tableClass.xElemIsValid (area.pElement j) = true →
      tableClass.xElemIsValid (area'.pElement j) = true ∧
        (area'.pElement j).verdict conn.1 iTable.1 eLock .force =
          (area.pElement j).verdict conn.1 iTable.1 eLock .force := by
    intro j used
    refine ⟨grows.valid used, ?_⟩
    by_cases mine : (area.pElement j).heldBy conn.1
    · have mine' := (grows.heldBy_iff used).2 mine
      have table : (area'.pElement j).iTable = (area.pElement j).iTable :=
        congrArg Prod.fst (grows.key j used)
      unfold TableElement.verdict
      rw [table, if_pos mine, if_pos mine']
      rfl
    · rw [grows.others j used mine]
  have ends : ∀ stop last, lockTableLoop cfg area.pElement conn.1 iTable.1 eLock .force
      cfg.nElement (cfg.xCalcHash iTable.1) none ≠ .stop stop last := by
    intro stop last stopped
    rcases lawful.forced_scan has eLock with ⟨found, -⟩ | ⟨found, -⟩
    · exact nomatch stopped.symm.trans found
    · exact nomatch stopped.symm.trans found
  unfold sqlite3rowlockIpcLockTable
  rw [lockTableLoop_mono verdict cfg.nElement _ _ ends]
  cases outcome : lockTableLoop cfg area.pElement conn.1 iTable.1 eLock .force cfg.nElement
      (cfg.xCalcHash iTable.1) none with
  | stop stop last => exact absurd outcome (ends stop last)
  | _ => rfl

/-- The search of a query. -/
def querySearch (cfg : TableConfig) (area : TableArea) (conn : Conn) (iTable : RootPage) : Search :=
  rowlockIpcSearch tableClass cfg.nElement area.pElement
    (tablelockTarget ⟨0, conn.1.owner⟩ iTable.1) (cfg.xCalcHash iTable.1)

/-- The query reports the entry of another connection. -/
def ReportsForeign (cfg : TableConfig) (area : TableArea) (conn : Conn) (iTable : RootPage) : Prop :=
  ∃ idx other, area.querySearch cfg conn iTable = .found idx ∧
    area.HasAt cfg other iTable idx ∧ other ≠ conn

/-- The query answers with the entry that it finds. -/
theorem query_eq : sqlite3rowlockIpcLockTableQuery cfg conn.1 area iTable.1 =
    match area.querySearch cfg conn iTable with
    | .found idx => (area.pElement idx).eLock
    | _ => .notLocked := by
  unfold sqlite3rowlockIpcLockTableQuery
  dsimp only
  split_ifs with used
  · rfl
  · have size : cfg.nElement = cfg.nElement - 1 + 1 := by
      have := cfg.two_le
      omega
    have stops : area.querySearch cfg conn iTable = .free (cfg.xCalcHash iTable.1) := by
      unfold querySearch rowlockIpcSearch
      rw [show searchLoop tableClass cfg.nElement area.pElement
        (tablelockTarget ⟨0, conn.1.owner⟩ iTable.1) (cfg.xCalcHash iTable.1) cfg.nElement =
          searchLoop tableClass cfg.nElement area.pElement
            (tablelockTarget ⟨0, conn.1.owner⟩ iTable.1) (cfg.xCalcHash iTable.1)
            (cfg.nElement - 1 + 1) by rw [← size], searchLoop, if_neg used]
    rw [stops]

/-- What the search of a query finds. -/
theorem Lawful.querySearch_cases (lawful : area.Lawful cfg) (conn : Conn) (iTable : RootPage) :
    (∃ idx other, area.querySearch cfg conn iTable = .found idx ∧ area.HasAt cfg other iTable idx ∧
      other.1.owner = conn.1.owner) ∨
    ((∀ idx, area.querySearch cfg conn iTable ≠ .found idx) ∧
      ∀ other idx, other.1.owner = conn.1.owner → ¬ area.HasAt cfg other iTable idx) := by
  have spec := rowlockIpcSearch_spec tableClass area.pElement
    (tablelockTarget ⟨0, conn.1.owner⟩ iTable.1) (cfg.hash_lt iTable.1)
  unfold querySearch
  cases outcome : rowlockIpcSearch tableClass cfg.nElement area.pElement
      (tablelockTarget ⟨0, conn.1.owner⟩ iTable.1) (cfg.xCalcHash iTable.1) with
  | found idx =>
    rw [outcome] at spec
    obtain ⟨bound, valid, hit⟩ := spec
    obtain ⟨other, same, has⟩ := (lawful.isTarget_iff bound valid).1 hit
    exact Or.inl ⟨idx, other, rfl, has, same.1.resolve_left conn.2.2⟩
  | free stop =>
    rw [outcome] at spec
    obtain ⟨stopBound, vacant, passed⟩ := spec
    refine Or.inr ⟨(fun _ found => nomatch found), fun other idx same has => ?_⟩
    have near := lawful.before_vacant has.1 has.iTable_eq stopBound vacant
    have missed := (passed idx has.1 near).2
    have hit : tableClass.xElemIsTarget (area.pElement idx)
        (tablelockTarget ⟨0, conn.1.owner⟩ iTable.1) = true :=
      (lawful.isTarget_iff has.1 has.valid).2 ⟨other, ⟨Or.inr same, Or.inl rfl⟩, has⟩
    rw [hit] at missed
    cases missed
  | full =>
    rw [outcome] at spec
    obtain ⟨j, bound, vacant⟩ := lawful.ring.vacancy
    rw [(spec j bound).1] at vacant
    cases vacant

/-- A query goes on reporting the entry it reported. -/
theorem Grows.querySearch_found (grows : Grows cfg conn area area')
    (found : area.querySearch cfg conn iTable = .found idx) :
    area'.querySearch cfg conn iTable = .found idx := by
  refine searchLoop_found_mono (fun j used => ⟨grows.valid used, ?_⟩) cfg.nElement _ found
  obtain ⟨table, handle⟩ := Prod.mk.inj (grows.key j used)
  obtain ⟨pid, owner⟩ := Handle.mk.inj handle
  simp only [tableClass, table, pid, owner]

/-- The entry of another keeps being reported. -/
theorem Grows.query_foreign (grows : Grows cfg conn area area')
    (foreign : area.ReportsForeign cfg conn iTable) :
    sqlite3rowlockIpcLockTableQuery cfg conn.1 area' iTable.1 =
      sqlite3rowlockIpcLockTableQuery cfg conn.1 area iTable.1 := by
  obtain ⟨idx, other, found, has, apart⟩ := foreign
  have notMine : ¬ (area.pElement idx).heldBy conn.1 := by
    intro mine
    apply apart
    apply Subtype.ext
    have handle : (⟨(area.pElement idx).pid, (area.pElement idx).owner⟩ : Handle) = other.1 :=
      congrArg Prod.snd has.2
    exact handle.symm.trans ((TableElement.heldBy_iff _ _).1 mine)
  rw [query_eq, query_eq, found, grows.querySearch_found found]
  dsimp only
  rw [grows.others idx has.valid notMine]

/-- Otherwise the own level is reported. -/
theorem Lawful.query_own (lawful : area.Lawful cfg) (own : ¬ area.ReportsForeign cfg conn iTable) :
    sqlite3rowlockIpcLockTableQuery cfg conn.1 area iTable.1 = area.level cfg conn iTable := by
  rw [query_eq]
  rcases lawful.querySearch_cases conn iTable with ⟨idx, other, found, has, -⟩ | ⟨missed, absent⟩
  · have mine : other = conn := by
      by_contra apart
      exact own ⟨idx, other, found, has, apart⟩
    subst mine
    rw [found, lawful.level_eq has]
  · rw [level_absent fun idx => absent conn idx rfl]
    cases outcome : area.querySearch cfg conn iTable with
    | found idx => exact absurd outcome (missed idx)
    | free | full => rfl

/-- An own entry that is reported stays so. -/
theorem Grows.reports_own (grows : Grows cfg conn area area') (lawful : area.Lawful cfg)
    (own : ¬ area.ReportsForeign cfg conn iTable) : ¬ area'.ReportsForeign cfg conn iTable := by
  rintro ⟨idx, other, found, has, apart⟩
  have before := grows.entries other apart iTable idx has
  rcases lawful.querySearch_cases conn iTable with ⟨j, first, found', has', -⟩ | ⟨-, absent⟩
  · have stays := grows.querySearch_found found'
    rw [found] at stays
    cases stays
    have same := before.2.symm.trans has'.2
    have equal : other = first := Subtype.ext (congrArg Prod.snd same)
    exact own ⟨idx, first, found', has', equal ▸ apart⟩
  · rcases grows.lawful.querySearch_cases conn iTable with ⟨j, first, found', has', sameOwner⟩ | missed
    · rw [found] at found'
      cases found'
      have equal : other = first := Subtype.ext (congrArg Prod.snd (has.2.symm.trans has'.2))
      exact absent other idx (equal ▸ sameOwner) before
    · exact missed.1 idx found

/-- An empty slot has no level left. -/
def Tidy (area : TableArea) : Prop :=
  ∀ idx, (area.pElement idx).iTable = 0 → (area.pElement idx).eLock = .notLocked

/-- Writing a slot keeps unused ones tidy. -/
theorem Tidy.update {data : Nat → TableElement} {count count' : Nat} {elem : TableElement}
    (tidy : Tidy ⟨count, data⟩) (here : elem.iTable = 0 → elem.eLock = .notLocked) (slot : Nat) :
    Tidy ⟨count', update data slot elem⟩ := by
  intro idx
  by_cases same : idx = slot
  · rw [same]
    simpa only [update_self] using here
  · simpa only [update_of_ne same] using tidy idx

/-- Lock requests keep the area tidy. -/
theorem LockOutcome.tidy (outcome : area.LockOutcome cfg conn iTable eLock mode result)
    (tidy : area.Tidy) : result.2.1.Tidy := by
  have written : iTable.1 = 0 → eLock = .notLocked := fun zero => absurd zero iTable.2
  cases outcome with
  | held | refused | nomem => exact tidy
  | force has =>
    refine tidy.update ?_ _
    exact fun zero => absurd zero (tableClass_valid_iff.1 has.valid)
  | upgraded | added => exact tidy.update written _

/-- Deleting a slot leaves an emptied slot without a level. -/
theorem rowlockIpcDelete_tidy (nElem fuel : Nat) :
    ∀ (data : Nat → TableElement) (idxStart idxDel idxEnd : Nat), Tidy ⟨0, data⟩ →
      Tidy ⟨0, rowlockIpcDelete tableClass nElem fuel data idxStart idxDel idxEnd⟩ := by
  induction fuel with
  | zero => exact fun _ _ _ _ tidy => tidy
  | succ fuel ih =>
    intro data idxStart idxDel idxEnd tidy
    unfold rowlockIpcDelete
    dsimp only
    split_ifs
    · exact tidy.update (fun _ => rfl) idxDel
    · refine ih _ _ _ _ (tidy.update ?_ idxDel)
      exact tidy _

/-- So do unlocks. -/
theorem UnlockOutcome.tidy {pHandle : Handle} {how : UnlockMode}
    (outcome : UnlockOutcome cfg area pHandle iTable how area') (tidy : area.Tidy) :
    area'.Tidy := by
  cases outcome with
  | absent => exact tidy
  | removed => exact rowlockIpcDelete_tidy _ _ _ _ _ _ tidy
  | reset same has =>
    refine tidy.update ?_ _
    exact tidy _

/-- A call on a lawful and tidy area leaves it so. -/
theorem perform_tidy (lawful : area.Lawful cfg) (tidy : area.Tidy) (call : TableCall) :
    (call.perform cfg area).Lawful cfg ∧ (call.perform cfg area).Tidy := by
  refine perform_induct (P := fun area => TableArea.Lawful cfg area ∧ Tidy area) call
    (fun conn iTable eLock mode _ => ?_) (fun area pHandle iTable mode both => ?_) ⟨lawful, tidy⟩
  · have outcome := lawful.lockTable_outcome conn iTable eLock mode
    exact ⟨outcome.lawful lawful, outcome.tidy tidy⟩
  · have outcome := both.1.unlockTable_outcome pHandle iTable mode
    exact ⟨outcome.lawful both.1, outcome.tidy both.2⟩

/-- Every area that calls produce is tidy. -/
theorem after_tidy (cfg : TableConfig) (calls : List TableCall) :
    (TableArea.after cfg calls).Tidy := by
  have both : (TableArea.after cfg calls).Lawful cfg ∧ (TableArea.after cfg calls).Tidy := by
    apply run_invariant (P := fun area => TableArea.Lawful cfg area ∧ Tidy area)
    · exact fun _ call both => perform_tidy both.1 both.2 call
    · exact ⟨init_lawful cfg, fun _ _ => rfl⟩
  exact both.2

end TableArea

end SQLumDash.Ipc
