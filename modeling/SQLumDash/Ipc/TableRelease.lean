import SQLumDash.Ipc.TableCompat

/-!
# Releasing the table locks of a connection

On a lawful area every unlock of the walk removes the entry it stands on, so exactly the entries of
others are left.
-/

namespace SQLumDash.Ipc

open Probing

namespace TableArea

variable {cfg : TableConfig} {area : TableArea} {conn other : Conn} {iTable : RootPage} {idx : Nat}

instance (pHandle : Handle) : DecidablePred fun elem : TableElement => elem.heldBy pHandle :=
  fun elem => inferInstanceAs (Decidable (elem.pid = pHandle.pid ∧ elem.owner = pHandle.owner))

/-- The walk works on the entries of the connection. -/
theorem released_iff : (tableClass.xElemIsValid (area.pElement idx) = true ∧
      (conn.1.pid = 0 ∨ (area.pElement idx).pid = conn.1.pid) ∧
      (conn.1.owner = 0 ∨ (area.pElement idx).owner = conn.1.owner)) ↔
    area.Releasable tableClass TableElement.content (fun elem => elem.heldBy conn.1) idx := by
  simp only [conn.2.1, conn.2.2, false_or]
  rfl

section

variable (lawful : area.Lawful cfg) (bound : idx < cfg.nElement)
  (here : area.Releasable tableClass TableElement.content (fun elem => elem.heldBy conn.1) idx)

include lawful bound here

/-- The unlock of a slot of the connection removes that slot. -/
theorem Lawful.unlock_slot :
    sqlite3rowlockIpcUnlockTableCore cfg conn.1 area (area.pElement idx).iTable .trans =
      removeSlot tableClass cfg.nElement area (home tableClass area.pElement idx) idx := by
  have nonzero := tableClass_valid_iff.1 here.1
  have has : area.HasAt cfg conn ⟨_, nonzero⟩ idx := hasAt_iff.2 ⟨bound, rfl, here.2⟩
  have outcome := lawful.unlockTable_outcome conn.1 ⟨_, nonzero⟩ .trans
  generalize sqlite3rowlockIpcUnlockTableCore cfg conn.1 area (area.pElement idx).iTable .trans =
    area' at outcome ⊢
  cases outcome with
  | absent absent => exact absurd has (absent conn idx (matches_conn.2 rfl))
  | removed same has' =>
    obtain rfl := matches_conn.1 same
    rw [lawful.hasAt_unique has has']
  | reset _ _ stays => exact absurd (Or.inl rfl) stays

/-- Removing an own entry keeps the area lawful. -/
theorem Lawful.removeSlot : TableArea.Lawful cfg
      (removeSlot tableClass cfg.nElement area (home tableClass area.pElement idx) idx) :=
  lawful.remove (hasAt_iff.2 ⟨bound, rfl, here.2⟩ :
    area.HasAt cfg conn ⟨_, tableClass_valid_iff.1 here.1⟩ idx)

end

/-- The inner loop removes the slot while it is the connection's. -/
theorem tableSlotLoop_eq (conn : Conn) (bound : idx < cfg.nElement) (fuel : Nat) :
    ∀ {area : TableArea}, area.Lawful cfg →
      tableSlotLoop cfg conn.1 conn.1.pid .trans idx fuel area =
        LockArea.removeLoop tableClass TableElement.content cfg.nElement
          (fun elem => elem.heldBy conn.1) idx fuel area := by
  induction fuel with
  | zero => exact fun _ => rfl
  | succ fuel ih =>
    intro area lawful
    unfold tableSlotLoop LockArea.removeLoop
    by_cases here : area.Releasable tableClass TableElement.content
        (fun elem => elem.heldBy conn.1) idx
    · rw [if_pos (released_iff.2 here), lawful.unlock_slot bound here]
      simp only [reduceCtorEq, false_and, if_false]
      rw [ih (lawful.removeSlot bound here)]
      exact (if_pos here).symm
    · rw [if_neg fun released => here (released_iff.1 released)]
      exact (if_neg here).symm

/-- The loop keeps the area lawful. -/
theorem removeLoop_lawful (conn : Conn) (bound : idx < cfg.nElement) (fuel : Nat) :
    ∀ {area : TableArea}, area.Lawful cfg →
      TableArea.Lawful cfg (LockArea.removeLoop tableClass TableElement.content cfg.nElement
        (fun elem => elem.heldBy conn.1) idx fuel area) := by
  induction fuel with
  | zero => exact fun lawful => lawful
  | succ fuel ih =>
    intro area lawful
    unfold LockArea.removeLoop
    split_ifs with here
    · exact ih (lawful.removeSlot bound here)
    · exact lawful

/-- The walk of the end of a transaction. -/
theorem Lawful.unlockTablesProc_eq (lawful : area.Lawful cfg) (conn : Conn) :
    sqlite3rowlockIpcUnlockTablesProc cfg conn.1 area =
      unlockProcCore tableClass cfg.nElement (fun idx area => LockArea.removeLoop tableClass
        TableElement.content cfg.nElement (fun elem => elem.heldBy conn.1) idx cfg.nElement area)
        area := by
  obtain ⟨origin, -⟩ := lawful.ring.procStart_spec cfg.two_le
  refine LockArea.unlockProcCore_congr (P := TableArea.Lawful cfg)
    (fun idx bound area lawful => tableSlotLoop_eq conn bound cfg.nElement lawful)
    (fun idx bound area lawful => ?_) origin rfl lawful
  rw [tableSlotLoop_eq conn bound cfg.nElement lawful]
  exact removeLoop_lawful conn bound cfg.nElement lawful

/-- No entry of the connection is left. -/
theorem Lawful.unlockTablesProc_none (lawful : area.Lawful cfg) (conn : Conn) (iTable : RootPage)
    (idx : Nat) : ¬ (sqlite3rowlockIpcUnlockTablesProc cfg conn.1 area).HasAt cfg conn iTable idx := by
  intro has
  obtain ⟨size, sized⟩ : ∃ size, cfg.nElement = size + 1 :=
    ⟨cfg.nElement - 1, by have := cfg.two_le; omega⟩
  have work : LockArea.Releases tableClass TableElement.content TableElement.key
      (fun key => cfg.xCalcHash key.1) cfg.nElement (fun elem => elem.heldBy conn.1)
      (fun idx area => LockArea.removeLoop tableClass TableElement.content cfg.nElement
        (fun elem => elem.heldBy conn.1) idx (size + 1) area) :=
    LockArea.removeLoop_releases _ _ size
  rw [← sized] at work
  obtain ⟨-, entries⟩ := lawful.ring.unlockProcCore tableClass_lawful cfg.two_le work
  rw [← lawful.unlockTablesProc_eq conn] at entries
  have member : ((sqlite3rowlockIpcUnlockTablesProc cfg conn.1 area).pElement idx).content ∈
      stored tableClass TableElement.content cfg.nElement
        (sqlite3rowlockIpcUnlockTablesProc cfg conn.1 area).pElement :=
    LockArea.mem_stored.2 ⟨idx, has.1, has.valid, rfl⟩
  rw [entries] at member
  exact (Multiset.mem_filter.1 member).2 has.heldBy

end TableArea

end SQLumDash.Ipc
