import SQLumDash.Ipc.TableAnswers
import Mathlib.Logic.Relation

/-!
# What one table unlock does to the other entries

Deleting a slot moves entries of its cluster, each into the slot the one before it left. An entry is
moved without its flag, which belongs to the slot. The entries that are left are what they were
exactly when the flags along this chain agree.
-/

namespace SQLumDash.Ipc

open Probing Function

section Shifting

variable {Elem Content : Type} {xClass : IpcClass Elem} {content : Elem → Content} {nElem : Nat}
  {data data' : Nat → Elem} {empty hole idxStart source i j : Nat}

/-- A hole has one filler. -/
theorem Filler.unique (origin : empty < nElem) {other : Nat}
    (filler : Filler xClass nElem data empty hole source)
    (filler' : Filler xClass nElem data empty hole other) : source = other := by
  obtain ⟨bound, behind, admissible, last⟩ := filler
  obtain ⟨bound', behind', admissible', last'⟩ := filler'
  have notLater : ¬ dist nElem empty source < dist nElem empty other :=
    fun later => last other bound' later admissible'
  have notEarlier : ¬ dist nElem empty other < dist nElem empty source :=
    fun earlier => last' source bound earlier admissible
  exact dist_inj origin bound bound' (by omega)

/-- Writing a slot does not change the filler behind it. -/
theorem filler_update {elem : Elem} (before : dist nElem empty hole < dist nElem empty i) :
    Filler xClass nElem (update data hole elem) empty i j ↔
      Filler xClass nElem data empty i j := by
  have same : ∀ k, dist nElem empty i < dist nElem empty k →
      home xClass (update data hole elem) k = home xClass data k := by
    intro k behind
    have apart : k ≠ hole := by
      rintro rfl
      omega
    unfold home
    rw [update_of_ne apart]
  unfold Filler
  constructor
  · rintro ⟨bound, behind, admissible, last⟩
    rw [same j behind] at admissible
    refine ⟨bound, behind, admissible, fun k target later => ?_⟩
    rw [← same k (by omega)]
    exact last k target later
  · rintro ⟨bound, behind, admissible, last⟩
    rw [← same j behind] at admissible
    refine ⟨bound, behind, admissible, fun k target later => ?_⟩
    rw [same k (by omega)]
    exact last k target later

/-- The slots that a deletion empties one after the other. -/
def Vacated (xClass : IpcClass Elem) (nElem : Nat) (data : Nat → Elem) (empty hole : Nat) :
    Nat → Prop :=
  Relation.ReflTransGen (Filler xClass nElem data empty) hole

/-- Each of them comes after the slot before it. -/
theorem Vacated.le (vacated : Vacated xClass nElem data empty hole i) :
    dist nElem empty hole ≤ dist nElem empty i := by
  induction vacated with
  | refl => exact Nat.le_refl _
  | tail _ filler ih => exact ih.trans filler.2.1.le

/-- Filling the hole leaves the rest of the chain as it is. -/
theorem vacated_update {elem : Elem} (before : dist nElem empty hole < dist nElem empty source) :
    Vacated xClass nElem (update data hole elem) empty source i ↔
      Vacated xClass nElem data empty source i := by
  constructor
  · intro vacated
    induction vacated with
    | refl => exact .refl
    | tail chain filler ih =>
      have later := Vacated.le chain
      exact .tail ih ((filler_update (by omega)).1 filler)
  · intro vacated
    induction vacated with
    | refl => exact .refl
    | tail chain filler ih =>
      have later := Vacated.le chain
      exact .tail ih ((filler_update (by omega)).2 filler)

/-- A deletion clears its slot, or fills it and goes on. -/
inductive Shifted (xClass : IpcClass Elem) (nElem empty : Nat) :
    (Nat → Elem) → Nat → (Nat → Elem) → Prop
  /-- No later entry may stand in the hole. -/
  | clear {data : Nat → Elem} {hole : Nat}
      (unneeded : ∀ j < nElem, dist nElem empty hole < dist nElem empty j →
        ¬ dist nElem empty (home xClass data j) ≤ dist nElem empty hole) :
      Shifted xClass nElem empty data hole (update data hole (xClass.xElemClear (data hole)))
  /-- The last one that may is moved there. -/
  | move {data data' : Nat → Elem} {hole source : Nat}
      (filler : Filler xClass nElem data empty hole source)
      (rest : Shifted xClass nElem empty
        (update data hole (xClass.xElemCopy (data hole) (data source))) source data') :
      Shifted xClass nElem empty data hole data'

/-- A deletion is such a chain. -/
theorem rowlockIpcDelete_shifted (lawful : xClass.Lawful content) (fuel : Nat) :
    ∀ (data : Nat → Elem) (idxStart hole : Nat),
      Hole xClass nElem data empty idxStart hole → nElem - dist nElem empty hole ≤ fuel →
      Shifted xClass nElem empty data hole
        (rowlockIpcDelete xClass nElem fuel data idxStart hole (prev nElem empty)) := by
  induction fuel with
  | zero =>
    intro data idxStart hole h enough
    have short := dist_lt (a := empty) h.holeBound
    omega
  | succ fuel ih =>
    intro data idxStart hole h enough
    rcases h.delete_step lawful fuel with
      ⟨unneeded, deleted⟩ | ⟨source, start, filler, -, moved, deleted⟩
    · rw [deleted]
      exact .clear unneeded
    · rw [deleted]
      have behind := filler.2.1
      exact .move filler (ih _ _ _ moved (by omega))

namespace Shifted

section

variable (shifted : Shifted xClass nElem empty data hole data')

include shifted

/-- The slots before the deleted one stay. -/
theorem frame (before : dist nElem empty i < dist nElem empty hole) : data' i = data i := by
  induction shifted with
  | @clear data hole unneeded =>
    have apart : i ≠ hole := by
      rintro rfl
      omega
    exact update_of_ne apart _ _
  | @move data data' hole source filler rest ih =>
    have behind := filler.2.1
    have apart : i ≠ hole := by
      rintro rfl
      omega
    rw [ih (by omega), update_of_ne apart]

/-- A slot of the chain receives the entry that fills it. -/
theorem moved (lawful : xClass.Lawful content) (origin : empty < nElem)
    (vacated : Vacated xClass nElem data empty hole i) (filler : Filler xClass nElem data empty i j) :
    content (data' i) = content (data j) := by
  induction shifted with
  | @clear data hole unneeded =>
    rcases Relation.ReflTransGen.cases_head vacated with here | ⟨next, first, -⟩
    · rw [← here] at filler
      exact absurd filler.2.2.1 (unneeded j filler.1 filler.2.1)
    · exact absurd first.2.2.1 (unneeded next first.1 first.2.1)
  | @move data data' hole source filled rest ih =>
    have behind := filled.2.1
    rcases Relation.ReflTransGen.cases_head vacated with here | ⟨next, first, chain⟩
    · rw [← here] at filler ⊢
      rw [rest.frame behind, update_self, lawful.copy, filler.unique origin filled]
    · rw [first.unique origin filled] at chain
      have later := Vacated.le chain
      have further := filler.2.1
      have apart : j ≠ hole := by
        rintro rfl
        omega
      rw [ih ((vacated_update behind).2 chain) ((filler_update (by omega)).2 filler),
        update_of_ne apart]

/-- Another slot keeps its element, or fills one of the chain. -/
theorem kept (apart : i ≠ hole) : data' i = data i ∨ ∃ k, Vacated xClass nElem data empty hole k ∧
      Filler xClass nElem data empty k i := by
  induction shifted with
  | clear => exact Or.inl (update_of_ne apart _ _)
  | @move data data' hole source filled rest ih =>
    have behind := filled.2.1
    by_cases moved : i = source
    · rw [moved]
      exact Or.inr ⟨hole, .refl, filled⟩
    · rcases ih moved with same | ⟨k, chain, filler⟩
      · rw [same, update_of_ne apart]
        exact Or.inl rfl
      · have later := Vacated.le chain
        exact Or.inr ⟨k, .head filled ((vacated_update behind).1 chain),
          (filler_update (by omega)).1 filler⟩

end

end Shifted

/-- The flag of a slot survives a deletion. -/
theorem Shifted.inUse {data data' : Nat → TableElement}
    (shifted : Shifted tableClass nElem empty data hole data') (idx : Nat) :
    (data' idx).inUse = (data idx).inUse := by
  induction shifted with
  | @clear data hole unneeded =>
    by_cases here : idx = hole
    · rw [here, update_self]
      rfl
    · rw [update_of_ne here]
  | @move data data' hole source filler rest ih =>
    rw [ih]
    by_cases here : idx = hole
    · rw [here, update_self]
      rfl
    · rw [update_of_ne here]

/-- The first empty slot behind a slot. -/
def ClusterEnd (xClass : IpcClass Elem) (nElem : Nat) (data : Nat → Elem) (idx stop : Nat) : Prop :=
  stop < nElem ∧ xClass.xElemIsValid (data stop) = false ∧
    ∀ j < nElem, dist nElem idx j < dist nElem idx stop → xClass.xElemIsValid (data j) = true

/-- A cluster has one end. -/
theorem ClusterEnd.unique {idx stop other : Nat} (bound : idx < nElem)
    (ends : ClusterEnd xClass nElem data idx stop) (ends' : ClusterEnd xClass nElem data idx other) :
    stop = other := by
  have notLater : ¬ dist nElem idx stop < dist nElem idx other := by
    intro near
    have used := ends'.2.2 stop ends.1 near
    rw [ends.2.1] at used
    cases used
  have notEarlier : ¬ dist nElem idx other < dist nElem idx stop := by
    intro near
    have used := ends.2.2 other ends'.1 near
    rw [ends'.2.1] at used
    cases used
  exact dist_inj bound ends.1 ends'.1 (by omega)

/-- The cluster around a hole ends where it says. -/
theorem Hole.clusterEnd (h : Hole xClass nElem data empty idxStart hole) :
    ClusterEnd xClass nElem data hole empty := by
  refine ⟨h.origin, h.vacant, fun j bound near => h.cluster j bound (h.inside.trans ?_)⟩
  apply dist_le_of_avoids h.origin h.holeBound bound
  omega

/-- Removing a slot shifts the cluster behind it. -/
theorem LockArea.Lawful.removeSlot_shifted {Key : Type} {key : Content → Key} {xCalcHash : Key → Nat}
    {area : LockArea Elem} {idx : Nat} (lawful : area.Lawful xClass content key xCalcHash nElem)
    (classLawful : xClass.Lawful content) (bound : idx < nElem)
    (valid : xClass.xElemIsValid (area.pElement idx) = true) :
    ∃ stop, Hole xClass nElem area.pElement stop (home xClass area.pElement idx) idx ∧
      Shifted xClass nElem stop area.pElement idx
        (removeSlot xClass nElem area (home xClass area.pElement idx) idx).pElement :=
  ⟨_, hole_of_emptyLoop lawful.reach lawful.vacancy bound valid,
    rowlockIpcDelete_shifted classLawful nElem _ _ _
      (hole_of_emptyLoop lawful.reach lawful.vacancy bound valid) (Nat.sub_le _ _)⟩

end Shifting

/-- `sqlite3rowlockIpcUnlockTable` -/
def sqlite3rowlockIpcUnlockTable (cfg : TableConfig) (pHandle : Handle) (area : TableArea)
    (iTable : Int) : TableArea :=
  sqlite3rowlockIpcUnlockTableCore cfg pHandle area iTable .trans

/-- Content and flag are the element. -/
theorem TableElement.eq_of_content {left right : TableElement}
    (same : left.content = right.content) (flag : left.inUse = right.inUse) : left = right := by
  have parts := TableElement.mk.inj same
  cases left
  cases right
  simp_all

namespace TableArea

/-- The entries of an area with all their fields. -/
def fullEntries (cfg : TableConfig) (area : TableArea) : Multiset TableElement :=
  stored tableClass id cfg.nElement area.pElement

/-- The flags along the chain agree. -/
def FlagsAgree (cfg : TableConfig) (area : TableArea) (idx : Nat) : Prop :=
  ∀ stop i j, ClusterEnd tableClass cfg.nElement area.pElement idx stop →
    Vacated tableClass cfg.nElement area.pElement stop idx i →
    Filler tableClass cfg.nElement area.pElement stop i j →
    (area.pElement j).inUse = (area.pElement i).inUse

variable {cfg : TableConfig} {area : TableArea} {conn : Conn} {iTable : RootPage} {idx : Nat}

/-- Entries are in used slots. -/
theorem mem_fullEntries {elem : TableElement} : elem ∈ area.fullEntries cfg ↔
    ∃ idx < cfg.nElement, (area.pElement idx).iTable ≠ 0 ∧ area.pElement idx = elem := by
  unfold fullEntries
  rw [LockArea.mem_stored]
  simp only [tableClass_valid_iff, id]

section

variable (lawful : area.Lawful cfg)

include lawful

/-- Keys are distinct. -/
theorem Lawful.keys_nodup : ((area.fullEntries cfg).map TableElement.key).Nodup := by
  have unique := lawful.ring.unique
  unfold stored at unique
  unfold fullEntries stored
  rw [Multiset.map_map] at unique ⊢
  exact unique

/-- The count is the number of entries. -/
theorem Lawful.card_fullEntries : (area.fullEntries cfg).card = area.count := by
  rw [lawful.ring.counted]
  unfold fullEntries stored
  rw [Multiset.card_map, Multiset.card_map]

/-- The others keep all fields exactly when the flags agree. -/
theorem Lawful.remove_fullEntries_iff (has : area.HasAt cfg conn iTable idx) :
    area.fullEntries cfg = area.pElement idx ::ₘ fullEntries cfg
        (Ipc.removeSlot tableClass cfg.nElement area (home tableClass area.pElement idx) idx) ↔
      area.FlagsAgree cfg idx := by
  have lawful' := lawful.remove has
  obtain ⟨-, split, -⟩ := lawful.ring.remove tableClass_lawful has.1 has.valid
  obtain ⟨stop, hole, shifted⟩ := lawful.ring.removeSlot_shifted tableClass_lawful has.1 has.valid
  have inside : ∀ i, Vacated tableClass cfg.nElement area.pElement stop idx i →
      i < cfg.nElement := by
    intro i chain
    cases chain with
    | refl => exact has.1
    | tail _ filler => exact filler.1
  have counts : area.count = (Ipc.removeSlot tableClass cfg.nElement area
      (home tableClass area.pElement idx) idx).count + 1 := by
    have smaller := congrArg Multiset.card split
    rw [Multiset.card_cons, ← lawful.ring.counted, ← lawful'.ring.counted] at smaller
    exact smaller
  generalize Ipc.removeSlot tableClass cfg.nElement area (home tableClass area.pElement idx) idx = area'
    at lawful' split shifted counts
  constructor
  · intro full stop' i j ends chain filler
    rw [ends.unique has.1 hole.clusterEnd] at chain filler
    have later := Vacated.le chain
    have further := filler.2.1
    have used := hole.cluster j filler.1 (hole.inside.trans (by omega))
    have moved := shifted.moved tableClass_lawful hole.origin chain filler
    have used' : tableClass.xElemIsValid (area'.pElement i) = true := by
      rw [tableClass_lawful.valid _ _ moved]
      exact used
    -- The moved entry was there before, with the flag it has now.
    have member : area'.pElement i ∈ area.fullEntries cfg := by
      rw [full]
      exact Multiset.mem_cons_of_mem
        (mem_fullEntries.2 ⟨i, inside i chain, tableClass_valid_iff.1 used', rfl⟩)
    obtain ⟨slot, bound, taken, same⟩ := mem_fullEntries.1 member
    have here : slot = j := by
      apply lawful.ring.slot_unique bound filler.1 (tableClass_valid_iff.2 taken) used
      rw [same, moved]
    rw [here] at same
    rw [same]
    exact shifted.inUse i
  · intro agree
    apply Multiset.eq_of_le_of_card_le
    · refine (Multiset.le_iff_subset (lawful.keys_nodup.of_map _)).2 fun elem member => ?_
      obtain ⟨slot, bound, taken, rfl⟩ := mem_fullEntries.1 member
      rw [Multiset.mem_cons]
      by_cases here : slot = idx
      · exact Or.inl (congrArg area.pElement here)
      right
      rcases shifted.kept here with same | ⟨k, chain, filler⟩
      · exact mem_fullEntries.2 ⟨slot, bound, same ▸ taken, same⟩
      · have moved := shifted.moved tableClass_lawful hole.origin chain filler
        have flag := agree stop k slot hole.clusterEnd chain filler
        have whole : area'.pElement k = area.pElement slot :=
          TableElement.eq_of_content moved ((shifted.inUse k).trans flag.symm)
        exact mem_fullEntries.2 ⟨k, inside k chain, whole ▸ taken, whole⟩
    · rw [Multiset.card_cons, lawful.card_fullEntries, lawful'.card_fullEntries]
      omega

/-- The search for a connection's entry finds it. -/
theorem Lawful.found (has : area.HasAt cfg conn iTable idx) :
    rowlockIpcSearch tableClass cfg.nElement area.pElement (tablelockTarget conn.1 iTable.1)
      (cfg.xCalcHash iTable.1) = .found idx := by
  have targets : ∀ j < cfg.nElement, tableClass.xElemIsValid (area.pElement j) = true →
      (tableClass.xElemIsTarget (area.pElement j) (tablelockTarget conn.1 iTable.1) = true ↔
        (area.pElement j).content.key = (iTable.1, conn.1)) := by
    intro j bound valid
    rw [lawful.isTarget_iff bound valid]
    constructor
    · rintro ⟨owner, same, own⟩
      rw [matches_conn.1 same] at own
      exact own.2
    · intro key
      exact ⟨conn, matches_conn.2 rfl, bound, key⟩
  exact (lawful.ring.search_found_iff (cfg.hash_lt iTable.1) targets).2 ⟨has.1, has.valid, has.2⟩

/-- The handle of an entry is that of one connection. -/
theorem Lawful.conn_of_key {pHandle : Handle} (bound : idx < cfg.nElement)
    (key : (area.pElement idx).key = (iTable.1, pHandle)) :
    ∃ self : Conn, self.1 = pHandle ∧ area.HasAt cfg self iTable idx ∧
      ∀ other, Matches pHandle other ↔ other = self := by
  obtain ⟨table, handle⟩ := Prod.mk.inj key
  have used : (area.pElement idx).iTable ≠ 0 := table ▸ iTable.2
  have named := lawful.named idx bound used
  let self : Conn := ⟨⟨(area.pElement idx).pid, (area.pElement idx).owner⟩, named⟩
  have alone : ∀ other, Matches self.1 other ↔ other = self := fun _ => matches_conn
  rw [← handle]
  exact ⟨self, rfl, ⟨bound, Prod.ext table rfl⟩, alone⟩

end

/-- The caller's entry is gone, every other one is as it was and found, and nothing changed if there
was none. -/
structure RemovesOnly (cfg : TableConfig) (area : TableArea) (pHandle : Handle) (iTable : RootPage)
    (area' : TableArea) : Prop where
  removed : ∀ idx < cfg.nElement, (area.pElement idx).key = (iTable.1, pHandle) →
    area.fullEntries cfg = area.pElement idx ::ₘ area'.fullEntries cfg
  absent : (∀ idx < cfg.nElement, (area.pElement idx).key ≠ (iTable.1, pHandle)) → area' = area
  once : ((area'.fullEntries cfg).map TableElement.key).Nodup
  findable : ∀ conn table idx, area'.HasAt cfg conn table idx →
    rowlockIpcSearch tableClass cfg.nElement area'.pElement (tablelockTarget conn.1 table.1)
      (cfg.xCalcHash table.1) = .found idx

end TableArea

open TableArea in
/-- After any calls, an unlock removes the caller's entry and leaves every other one as it is
exactly when each entry that the handle stands for is the caller's own and the flags along the chain
of moves that fills its slot agree. -/
theorem unlockTable_removes_only_iff (cfg : TableConfig) (calls : List TableCall) (pHandle : Handle)
    (iTable : RootPage) :
    let area := TableArea.after cfg calls
    RemovesOnly cfg area pHandle iTable (sqlite3rowlockIpcUnlockTable cfg pHandle area iTable.1) ↔
      ∀ conn idx, Matches pHandle conn → area.HasAt cfg conn iTable idx →
        conn.1 = pHandle ∧ area.FlagsAgree cfg idx := by
  intro area
  have lawful : area.Lawful cfg := after_lawful cfg calls
  have outcome := lawful.unlockTable_outcome pHandle iTable .trans
  have lawful' := outcome.lawful lawful
  unfold sqlite3rowlockIpcUnlockTable
  generalize sqlite3rowlockIpcUnlockTableCore cfg pHandle area iTable.1 .trans = area'
    at outcome lawful'
  constructor
  · intro only conn idx same has
    cases outcome with
    | absent absent => exact absurd has (absent conn idx same)
    | reset _ _ stays => exact absurd (Or.inl rfl) stays
    | @removed owner slot same' has' =>
      by_cases mine : ∃ j < cfg.nElement, (area.pElement j).key = (iTable.1, pHandle)
      · obtain ⟨j, bound, key⟩ := mine
        obtain ⟨self, rfl, -, alone⟩ := lawful.conn_of_key bound key
        obtain rfl := (alone conn).1 same
        obtain rfl := (alone owner).1 same'
        have here := lawful.hasAt_unique has' has
        rw [here] at only
        exact ⟨rfl, (lawful.remove_fullEntries_iff has).1 (only.removed idx has.1 has.2)⟩
      · -- Some entry went although none was the caller's.
        push Not at mine
        obtain ⟨-, split, -⟩ := lawful.ring.remove tableClass_lawful has'.1 has'.valid
        have smaller := congrArg Multiset.card split
        rw [only.absent mine, Multiset.card_cons] at smaller
        omega
  · intro agree
    refine ⟨fun idx bound key => ?_, fun absent => ?_, lawful'.keys_nodup,
      fun conn table idx has => lawful'.found has⟩
    · obtain ⟨self, rfl, has, alone⟩ := lawful.conn_of_key bound key
      have same := (alone self).2 rfl
      cases outcome with
      | absent absent => exact absurd has (absent self idx same)
      | reset _ _ stays => exact absurd (Or.inl rfl) stays
      | @removed owner slot same' has' =>
        obtain rfl := (alone owner).1 same'
        rw [lawful.hasAt_unique has' has]
        exact (lawful.remove_fullEntries_iff has).2 (agree owner idx same has).2
    · cases outcome with
      | absent => rfl
      | reset _ _ stays => exact absurd (Or.inl rfl) stays
      | @removed owner slot same' has' =>
        have handle := (agree owner slot same' has').1
        exact absurd (has'.2.trans (by rw [handle])) (absent slot has'.1)

/-- The entry of a connection whose statement has ended stands before that of one whose statement
runs. Unlocking it moves the second one, which loses its flag. -/
theorem unlockTable_clears_flag :
    let cfg := tableConfig 4 (by decide)
    let area := TableArea.after cfg [.lock connA tableTwo .write .normal, .stmtEnd connA,
      .lock connB tableTwo .write .normal]
    let area' := sqlite3rowlockIpcUnlockTable cfg connA.1 area tableTwo.1
    (∃ idx < cfg.nElement, area.HasAt cfg connB tableTwo idx ∧
        (area.pElement idx).inUse = true) ∧
      ∀ idx < cfg.nElement, area'.HasAt cfg connB tableTwo idx →
        (area'.pElement idx).inUse = false := by
  decide

end SQLumDash.Ipc
