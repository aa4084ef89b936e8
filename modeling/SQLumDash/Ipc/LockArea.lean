import SQLumDash.Ipc.IpcClassSpec

/-!
# Lawful lock areas

The invariant that both areas share: at most one entry per key, each reachable from the hash of its
key, and one slot empty. A pass around the ring removes exactly the entries it is meant to remove.
-/

namespace SQLumDash.Ipc

open Probing Function
open Multiset (mem_map map_map card_map map_cons nodup_cons card_cons mem_cons_of_mem)

namespace LockArea

variable {Elem Content Key : Type}

/-- The invariant of a lock area. -/
structure Lawful (xClass : IpcClass Elem) (content : Elem → Content) (key : Content → Key)
    (xCalcHash : Key → Nat) (nElem : Nat) (area : LockArea Elem) : Prop where
  reach : Reachable nElem (occupied xClass area.pElement) (home xClass area.pElement)
  hashed : ∀ idx < nElem, xClass.xElemIsValid (area.pElement idx) = true →
    xClass.xElemHash (area.pElement idx) = xCalcHash (key (content (area.pElement idx)))
  unique : ((stored xClass content nElem area.pElement).map key).Nodup
  counted : area.count = (stored xClass content nElem area.pElement).card
  /-- One slot stays empty. -/
  room : area.count < nElem

variable {xClass : IpcClass Elem} {content : Elem → Content} {key : Content → Key}
  {xCalcHash : Key → Nat} {nElem : Nat} {area : LockArea Elem} {idx : Nat}

/-- What is stored is in a used slot. -/
theorem mem_stored {data : Nat → Elem} {entry : Content} :
    entry ∈ stored xClass content nElem data ↔
      ∃ idx < nElem, xClass.xElemIsValid (data idx) = true ∧ content (data idx) = entry := by
  unfold stored validSlots
  simp only [mem_map, Finset.mem_val, Finset.mem_filter, Finset.mem_range]
  constructor
  · rintro ⟨idx, ⟨bound, valid⟩, rfl⟩
    exact ⟨idx, bound, valid, rfl⟩
  · rintro ⟨idx, bound, valid, rfl⟩
    exact ⟨idx, ⟨bound, valid⟩, rfl⟩

/-- An area without entries is lawful. -/
theorem Lawful.of_empty (empty : ∀ idx, xClass.xElemIsValid (area.pElement idx) = false)
    (zero : area.count = 0) (room : 0 < nElem) :
    area.Lawful xClass content key xCalcHash nElem := by
  have nothing : stored xClass content nElem area.pElement = 0 := by
    apply Multiset.eq_zero_of_forall_notMem
    intro entry member
    obtain ⟨idx, -, valid, -⟩ := mem_stored.1 member
    rw [empty idx] at valid
    cases valid
  refine ⟨fun idx _ used => ?_, fun idx _ used => ?_, ?_, ?_, ?_⟩
  · unfold occupied at used
    rw [empty idx] at used
    cases used
  · rw [empty idx] at used
    cases used
  · rw [nothing]
    exact Multiset.nodup_zero
  · rw [nothing, zero]
    rfl
  · omega

namespace Lawful

section

variable (lawful : area.Lawful xClass content key xCalcHash nElem)

include lawful

/-- Two slots with one key are one slot. -/
theorem slot_unique {i j : Nat} (left : i < nElem) (right : j < nElem)
    (validI : xClass.xElemIsValid (area.pElement i) = true)
    (validJ : xClass.xElemIsValid (area.pElement j) = true)
    (same : key (content (area.pElement i)) = key (content (area.pElement j))) : i = j := by
  have unique := lawful.unique
  unfold stored at unique
  rw [map_map] at unique
  have slot : ∀ {k}, k < nElem → xClass.xElemIsValid (area.pElement k) = true →
      k ∈ (validSlots xClass nElem area.pElement).val := by
    intro k bound valid
    simp only [validSlots, Finset.mem_val, Finset.mem_filter, Finset.mem_range]
    exact ⟨bound, valid⟩
  exact Multiset.inj_on_of_nodup_map unique i (slot left validI) j (slot right validJ) same

/-- Some slot is empty. -/
theorem vacancy : ∃ j < nElem, xClass.xElemIsValid (area.pElement j) = false := by
  by_contra occupied
  push Not at occupied
  have all : validSlots xClass nElem area.pElement = Finset.range nElem := by
    apply Finset.filter_true_of_mem
    intro j member
    simpa using occupied j (Finset.mem_range.1 member)
  have counted := lawful.counted
  unfold stored at counted
  rw [card_map, all, Finset.card_val, Finset.card_range] at counted
  have room := lawful.room
  omega

/-- An entry lies before every empty slot. -/
theorem before_vacant {stop : Nat} (bound : idx < nElem)
    (valid : xClass.xElemIsValid (area.pElement idx) = true) (stopBound : stop < nElem)
    (vacant : xClass.xElemIsValid (area.pElement stop) = false) :
    dist nElem (xCalcHash (key (content (area.pElement idx)))) idx <
      dist nElem (xCalcHash (key (content (area.pElement idx)))) stop := by
  by_contra after
  have start : home xClass area.pElement idx = xCalcHash (key (content (area.pElement idx))) :=
    lawful.hashed idx bound valid
  have path := (lawful.reach idx bound valid).2 stop stopBound (by rw [start]; omega)
  unfold occupied at path
  rw [vacant] at path
  cases path

/-- A search finds the slot that stores its key. -/
theorem search_found_iff {target : Elem} {k : Key} (hashBound : xCalcHash k < nElem)
    (targets : ∀ j < nElem, xClass.xElemIsValid (area.pElement j) = true →
      (xClass.xElemIsTarget (area.pElement j) target = true ↔ key (content (area.pElement j)) = k)) :
    rowlockIpcSearch xClass nElem area.pElement target (xCalcHash k) = .found idx ↔
      idx < nElem ∧ xClass.xElemIsValid (area.pElement idx) = true ∧
        key (content (area.pElement idx)) = k := by
  have spec := rowlockIpcSearch_spec xClass area.pElement target hashBound
  constructor
  · intro found
    rw [found] at spec
    exact ⟨spec.1, spec.2.1, (targets idx spec.1 spec.2.1).1 spec.2.2⟩
  · rintro ⟨bound, valid, same⟩
    have hit := (targets idx bound valid).2 same
    cases outcome : rowlockIpcSearch xClass nElem area.pElement target (xCalcHash k) with
    | found other =>
      rw [outcome] at spec
      have otherKey := (targets other spec.1 spec.2.1).1 spec.2.2
      rw [lawful.slot_unique bound spec.1 valid spec.2.1 (same.trans otherKey.symm)]
    | full =>
      rw [outcome] at spec
      have missed := (spec idx bound).2
      rw [hit] at missed
      cases missed
    | free stop =>
      rw [outcome] at spec
      obtain ⟨stopBound, vacant, passed⟩ := spec
      have before := lawful.before_vacant bound valid stopBound vacant
      rw [same] at before
      have missed := (passed idx bound before).2
      rw [hit] at missed
      cases missed

/-- With a slot empty, the search never visits every slot. -/
theorem search_not_full {target : Elem} {hash : Nat} (hashBound : hash < nElem) :
    rowlockIpcSearch xClass nElem area.pElement target hash ≠ .full := by
  intro full
  have spec := rowlockIpcSearch_spec xClass area.pElement target hashBound
  rw [full] at spec
  obtain ⟨j, bound, vacant⟩ := lawful.vacancy
  have used := (spec j bound).1
  rw [vacant] at used
  cases used

/-- An absent key is stored in the first empty slot. -/
theorem store {elem : Elem} (bound : idx < nElem)
    (vacant : xClass.xElemIsValid (area.pElement idx) = false)
    (valid : xClass.xElemIsValid elem = true) (hashBound : xClass.xElemHash elem < nElem)
    (path : ∀ j < nElem, dist nElem (xClass.xElemHash elem) j <
      dist nElem (xClass.xElemHash elem) idx → xClass.xElemIsValid (area.pElement j) = true)
    (hashed : xClass.xElemHash elem = xCalcHash (key (content elem)))
    (absent : ∀ entry ∈ stored xClass content nElem area.pElement, key entry ≠ key (content elem))
    (space : area.count < nElem - 1) :
    let area' : LockArea Elem := ⟨area.count + 1, update area.pElement idx elem⟩
    area'.Lawful xClass content key xCalcHash nElem ∧
      stored xClass content nElem area'.pElement =
        content elem ::ₘ stored xClass content nElem area.pElement := by
  have grown : stored xClass content nElem (update area.pElement idx elem) =
      content elem ::ₘ stored xClass content nElem area.pElement := stored_update bound vacant valid
  refine ⟨⟨?_, ?_, ?_, ?_, ?_⟩, grown⟩
  · apply lawful.reach.store (i := idx)
    · simpa only [home, update_self] using hashBound
    · intro j target near
      simp only [home, update_self] at near
      exact path j target near
    · simpa only [occupied, update_self] using valid
    · intro j other
      simp only [occupied, home, update_of_ne other, and_self]
  · intro j target used
    change xClass.xElemIsValid (update area.pElement idx elem j) = true at used
    change xClass.xElemHash (update area.pElement idx elem j) =
      xCalcHash (key (content (update area.pElement idx elem j)))
    by_cases same : j = idx
    · rw [same, update_self]
      exact hashed
    · rw [update_of_ne same] at used ⊢
      exact lawful.hashed j target used
  · rw [grown, map_cons, nodup_cons]
    refine ⟨fun member => ?_, lawful.unique⟩
    obtain ⟨entry, inside, same⟩ := mem_map.1 member
    exact absent entry inside same
  · change area.count + 1 = _
    rw [grown, card_cons, ← lawful.counted]
  · change area.count + 1 < nElem
    omega

/-- Removing a slot takes out its entry and touches only the cluster behind it. -/
theorem remove (classLawful : xClass.Lawful content) (bound : idx < nElem)
    (valid : xClass.xElemIsValid (area.pElement idx) = true) :
    let area' := removeSlot xClass nElem area (home xClass area.pElement idx) idx
    area'.Lawful xClass content key xCalcHash nElem ∧
      stored xClass content nElem area.pElement =
        content (area.pElement idx) ::ₘ stored xClass content nElem area'.pElement ∧
      ∃ stop, Hole xClass nElem area.pElement stop (home xClass area.pElement idx) idx ∧
        ∀ j, dist nElem stop j < dist nElem stop idx → area'.pElement j = area.pElement j := by
  have hole := hole_of_emptyLoop lawful.reach lawful.vacancy bound valid
  unfold removeSlot
  rw [xIndexNext_eq]
  generalize emptyLoop xClass nElem area.pElement (home xClass area.pElement idx) nElem
    (next nElem idx) = stop at hole
  obtain ⟨reach, removed, frame⟩ :=
    rowlockIpcDelete_spec classLawful nElem area.pElement _ idx hole (Nat.sub_le _ _)
  dsimp only
  rw [xIndexPrev_eq]
  generalize rowlockIpcDelete xClass nElem nElem area.pElement (home xClass area.pElement idx) idx
    (prev nElem stop) = data' at reach removed frame
  have split : stored xClass content nElem area.pElement =
      content (area.pElement idx) ::ₘ stored xClass content nElem data' := by
    rw [removed]
    exact stored_eq_cons content bound valid
  have counted := lawful.counted
  have room := lawful.room
  have unique := lawful.unique
  rw [split] at counted unique
  rw [card_cons] at counted
  rw [map_cons, nodup_cons] at unique
  refine ⟨⟨reach, ?_, unique.2, ?_, ?_⟩, split, stop, hole, fun j near => frame j (.inr near)⟩
  · intro j target used
    have member : content (data' j) ∈ stored xClass content nElem area.pElement := by
      rw [split]
      exact mem_cons_of_mem (mem_stored.2 ⟨j, target, used, rfl⟩)
    obtain ⟨source, sourceBound, sourceValid, same⟩ := mem_stored.1 member
    rw [← classLawful.hash _ _ same, ← same]
    exact lawful.hashed source sourceBound sourceValid
  · change area.count - 1 = (stored xClass content nElem data').card
    omega
  · change area.count - 1 < nElem
    omega

/-- An entry may be overwritten under its key. -/
theorem overwrite {elem : Elem} (valid : xClass.xElemIsValid (area.pElement idx) = true)
    (validElem : xClass.xElemIsValid elem = true)
    (hash : xClass.xElemHash elem = xClass.xElemHash (area.pElement idx))
    (same : key (content elem) = key (content (area.pElement idx))) :
    (⟨area.count, update area.pElement idx elem⟩ : LockArea Elem).Lawful xClass content key
      xCalcHash nElem := by
  have agree : ∀ {β : Type} (f : Elem → β), f elem = f (area.pElement idx) →
      ∀ j, f (update area.pElement idx elem j) = f (area.pElement j) := by
    intro β f agrees j
    by_cases here : j = idx
    · rw [here, update_self]
      exact agrees
    · rw [update_of_ne here]
  have valid' := agree xClass.xElemIsValid (validElem.trans valid.symm)
  have hash' := agree xClass.xElemHash hash
  have key' := agree (fun elem => key (content elem)) same
  have slots : validSlots xClass nElem (update area.pElement idx elem) =
      validSlots xClass nElem area.pElement := by
    unfold validSlots
    simp only [valid']
  have keys : (stored xClass content nElem (update area.pElement idx elem)).map key =
      (stored xClass content nElem area.pElement).map key := by
    unfold stored
    rw [slots, map_map, map_map]
    exact Multiset.map_congr rfl fun j _ => key' j
  refine ⟨?_, ?_, ?_, ?_, lawful.room⟩
  · have used : occupied xClass (update area.pElement idx elem) =
        occupied xClass area.pElement := funext valid'
    have homes : home xClass (update area.pElement idx elem) =
        home xClass area.pElement := funext hash'
    change Reachable nElem (occupied xClass (update area.pElement idx elem))
      (home xClass (update area.pElement idx elem))
    rw [used, homes]
    exact lawful.reach
  · intro j target used
    change xClass.xElemHash (update area.pElement idx elem j) =
      xCalcHash (key (content (update area.pElement idx elem j)))
    rw [hash' j, key' j]
    exact lawful.hashed j target ((valid' j).symm.trans used)
  · change ((stored xClass content nElem (update area.pElement idx elem)).map key).Nodup
    rw [keys]
    exact lawful.unique
  · have sizes := congrArg Multiset.card keys
    rw [card_map, card_map] at sizes
    exact lawful.counted.trans sizes.symm

/-- The walk back to an empty slot finds one. -/
theorem procStartLoop_spec (fuel : Nat) : ∀ idx < nElem, 0 < idx → idx ≤ fuel →
      (∀ j < nElem, idx < j → xClass.xElemIsValid (area.pElement j) = true) →
      procStartLoop xClass nElem area fuel idx < nElem ∧
        xClass.xElemIsValid (area.pElement (procStartLoop xClass nElem area fuel idx)) = false := by
  induction fuel with
  | zero => intro idx bound positive enough; omega
  | succ fuel ih =>
    intro idx bound positive enough visited
    unfold procStartLoop
    cases valid : xClass.xElemIsValid (area.pElement idx) with
    | false =>
      simp only [Bool.false_eq_true, if_false]
      exact ⟨bound, valid⟩
    | true =>
      have back : xIndexPrev nElem idx = idx - 1 := by
        rw [xIndexPrev_eq, prev_eq_ite bound, if_neg (by omega)]
      have visited' : ∀ j < nElem, idx - 1 < j → xClass.xElemIsValid (area.pElement j) = true := by
        intro j target later
        by_cases same : j = idx
        · rw [same]
          exact valid
        · exact visited j target (by omega)
      simp only [if_true, back]
      by_cases first : idx - 1 = 0
      · simp only [first, if_true]
        refine ⟨by omega, ?_⟩
        obtain ⟨j, target, empty⟩ := lawful.vacancy
        have zero : j = 0 := by
          by_contra later
          rw [visited' j target (by omega)] at empty
          cases empty
        rw [← zero]
        exact empty
      · simp only [first, if_false]
        exact ih (idx - 1) (by omega) (by omega) (by omega) visited'

/-- A walk starts on a vacant slot. -/
theorem procStart_spec (two : 2 ≤ nElem) :
    let start := procStartLoop xClass nElem area nElem (nElem - 1)
    start < nElem ∧ xClass.xElemIsValid (area.pElement start) = false :=
  lawful.procStartLoop_spec nElem (nElem - 1) (by omega) (by omega) (by omega)
    (fun j target later => by omega)

end

end Lawful

/-- Every slot from `i` up to `j` is used. -/
def Behind (xClass : IpcClass Elem) (nElem : Nat) (area : LockArea Elem) (i j : Nat) : Prop :=
  j ≠ i ∧ ∀ k < nElem, dist nElem i k ≤ dist nElem i j →
    xClass.xElemIsValid (area.pElement k) = true

instance (xClass : IpcClass Elem) (nElem : Nat) (area : LockArea Elem) (i j : Nat) :
    Decidable (area.Behind xClass nElem i j) :=
  inferInstanceAs (Decidable (_ ∧ _))

/-- Removing a slot leaves alone what is not behind it. -/
theorem Lawful.remove_frame (lawful : area.Lawful xClass content key xCalcHash nElem)
    (classLawful : xClass.Lawful content) (bound : idx < nElem)
    (valid : xClass.xElemIsValid (area.pElement idx) = true) {j : Nat} (target : j < nElem)
    (apart : j ≠ idx) (notBehind : ¬ area.Behind xClass nElem idx j) :
    let area' := removeSlot xClass nElem area (home xClass area.pElement idx) idx
    area'.pElement j = area.pElement j ∧ ∀ i < nElem, area'.Behind xClass nElem i j →
      area.Behind xClass nElem i j ∧ area'.pElement i = area.pElement i := by
  obtain ⟨-, -, stop, hole, frame⟩ := lawful.remove classLawful bound valid
  generalize removeSlot xClass nElem area (home xClass area.pElement idx) idx = area' at frame
  have before : dist nElem stop j < dist nElem stop idx := by
    by_contra later
    refine notBehind ⟨apart, fun k inside near => ?_⟩
    have ordered : dist nElem stop idx ≤ dist nElem stop j := by omega
    have between := (dist_le_iff_between hole.origin bound inside target ordered).1 near
    exact hole.cluster k inside (hole.inside.trans between.1)
  refine ⟨frame j before, fun i source ⟨away, path⟩ => ?_⟩
  by_cases inFront : dist nElem stop i < dist nElem stop idx
  · refine ⟨⟨away, fun k inside near => ?_⟩, frame i inFront⟩
    have used := path k inside near
    by_cases kept : dist nElem stop k < dist nElem stop idx
    · rw [frame k kept] at used
      exact used
    · exact hole.cluster k inside (hole.inside.trans (by omega))
  · -- From inside the cluster the walk to `j` meets the empty slot behind it.
    have zero := (dist_eq_zero hole.origin hole.origin).2 rfl
    have meets : dist nElem i stop ≤ dist nElem i j := by
      rw [dist_eq_ite hole.origin target, dist_eq_ite hole.origin bound] at before
      rw [dist_eq_ite hole.origin source, dist_eq_ite hole.origin bound] at inFront
      rw [dist_eq_ite source hole.origin, dist_eq_ite source target]
      have originBound := hole.origin
      split_ifs at before inFront ⊢ <;> omega
    have used := path stop hole.origin meets
    rw [frame stop (by omega), hole.vacant] at used
    cases used

/-- What the work at every slot keeps. -/
theorem unlockProcCore_induct {P : LockArea Elem → Prop}
    {slot : Nat → LockArea Elem → LockArea Elem} (step : ∀ idx area, P area → P (slot idx area))
    (holds : P area) : P (unlockProcCore xClass nElem slot area) := by
  have loop : ∀ (fuel idxStart idx : Nat) (area : LockArea Elem), P area →
      P (procLoop nElem slot idxStart fuel idx area) := by
    intro fuel idxStart
    induction fuel with
    | zero => exact fun idx area holds => holds
    | succ fuel ih =>
      intro idx area holds
      unfold procLoop
      dsimp only
      split_ifs
      · exact step idx area holds
      · exact ih _ _ (step idx area holds)
  exact loop nElem _ _ area holds

section Release

variable {rel : Content → Prop} {empty : Nat}

/-- The slot holds an entry that is to be released. -/
def Releasable (xClass : IpcClass Elem) (content : Elem → Content) (rel : Content → Prop)
    (area : LockArea Elem) (idx : Nat) : Prop :=
  xClass.xElemIsValid (area.pElement idx) = true ∧ rel (content (area.pElement idx))

/-- Nothing releasable is moved into a slot behind which there is nothing. -/
theorem remove_releasable (lawful : area.Lawful xClass content key xCalcHash nElem)
    (classLawful : xClass.Lawful content) (origin : empty < nElem)
    (vacant : xClass.xElemIsValid (area.pElement empty) = false) (bound : idx < nElem)
    (here : area.Releasable xClass content rel idx)
    (visited : ∀ j < nElem, dist nElem empty idx < dist nElem empty j →
      ¬ area.Releasable xClass content rel j) :
    let area' := removeSlot xClass nElem area (home xClass area.pElement idx) idx
    xClass.xElemIsValid (area'.pElement empty) = false ∧
      ∀ j < nElem, dist nElem empty idx ≤ dist nElem empty j →
        ¬ area'.Releasable xClass content rel j := by
  obtain ⟨kept, split, stop, hole, frame⟩ := lawful.remove classLawful bound here.1
  generalize removeSlot xClass nElem area (home xClass area.pElement idx) idx = area'
    at kept split frame
  have outside : dist nElem stop empty < dist nElem stop idx := by
    by_contra inside
    have used := hole.cluster empty origin (hole.inside.trans (by omega))
    rw [vacant] at used
    cases used
  -- The cluster behind the slot ends no later than the empty slot.
  have ends : ∀ j < nElem, dist nElem stop idx < dist nElem stop j →
      dist nElem empty idx < dist nElem empty j := by
    intro j target behind
    have outside' := outside
    rw [dist_eq_ite hole.origin bound, dist_eq_ite hole.origin target] at behind
    rw [dist_eq_ite hole.origin bound, dist_eq_ite hole.origin origin] at outside'
    rw [dist_eq_ite origin bound, dist_eq_ite origin target]
    split_ifs at behind outside' ⊢ <;> omega
  constructor
  · rw [frame empty outside]
    exact vacant
  · intro j target from_ ⟨valid, released⟩
    by_cases inside : dist nElem stop j < dist nElem stop idx
    · have same := frame j inside
      rw [same] at valid released
      by_cases equal : dist nElem empty idx = dist nElem empty j
      · have slot := dist_inj origin bound target equal
        rw [slot] at inside
        omega
      · exact visited j target (by omega) ⟨valid, released⟩
    · -- The entry now in `j` was in another slot of the cluster, where it was not releasable.
      have member : content (area'.pElement j) ∈ stored xClass content nElem area.pElement := by
        rw [split]
        exact mem_cons_of_mem (mem_stored.2 ⟨j, target, valid, rfl⟩)
      obtain ⟨source, sourceBound, sourceValid, same⟩ := mem_stored.1 member
      rcases Nat.lt_trichotomy (dist nElem stop source) (dist nElem stop idx) with
        before | at_ | behind
      · have stays := frame source before
        have slot := kept.slot_unique sourceBound target (by rw [stays]; exact sourceValid) valid
          (by rw [stays, same])
        rw [slot] at before
        exact inside before
      · have slot := dist_inj hole.origin sourceBound bound at_
        have once := lawful.unique
        rw [split, map_cons, nodup_cons] at once
        apply once.1
        rw [← slot, same]
        exact Multiset.mem_map_of_mem _ (mem_stored.2 ⟨j, target, valid, rfl⟩)
      · refine visited source sourceBound (ends source sourceBound behind) ⟨sourceValid, ?_⟩
        rw [same]
        exact released

variable [DecidablePred rel]

/-- What a pass keeps: a lawful area, an empty starting slot, and the entries that stay. -/
structure Releasing (xClass : IpcClass Elem) (content : Elem → Content) (key : Content → Key)
    (xCalcHash : Key → Nat) (nElem : Nat) (rel : Content → Prop) [DecidablePred rel] (empty : Nat)
    (start area : LockArea Elem) : Prop where
  lawful : area.Lawful xClass content key xCalcHash nElem
  vacant : xClass.xElemIsValid (area.pElement empty) = false
  kept : (stored xClass content nElem area.pElement).filter (fun entry => ¬ rel entry) =
    (stored xClass content nElem start.pElement).filter fun entry => ¬ rel entry

/-- The work at one slot: nothing if it stays, else it is removed. -/
structure Releases (xClass : IpcClass Elem) (content : Elem → Content) (key : Content → Key)
    (xCalcHash : Key → Nat) (nElem : Nat) (rel : Content → Prop)
    (slot : Nat → LockArea Elem → LockArea Elem) : Prop where
  stays : ∀ idx area, ¬ area.Releasable xClass content rel idx → slot idx area = area
  removes : ∀ idx (area : LockArea Elem), area.Lawful xClass content key xCalcHash nElem →
    idx < nElem → area.Releasable xClass content rel idx →
    ¬ (removeSlot xClass nElem area (home xClass area.pElement idx) idx).Releasable xClass content
      rel idx →
    slot idx area = removeSlot xClass nElem area (home xClass area.pElement idx) idx

variable {slot : Nat → LockArea Elem → LockArea Elem} {start : LockArea Elem}

section

variable (classLawful : xClass.Lawful content)
  (work : Releases xClass content key xCalcHash nElem rel slot) (origin : empty < nElem)

include classLawful work origin

/-- Slots that were visited are not releasable. -/
theorem Releasing.visit (state : Releasing xClass content key xCalcHash nElem rel empty start area)
    (bound : idx < nElem)
    (visited : ∀ j < nElem, dist nElem empty idx < dist nElem empty j →
      ¬ area.Releasable xClass content rel j) :
    Releasing xClass content key xCalcHash nElem rel empty start (slot idx area) ∧
      ∀ j < nElem, dist nElem empty idx ≤ dist nElem empty j →
        ¬ (slot idx area).Releasable xClass content rel j := by
  by_cases here : area.Releasable xClass content rel idx
  · obtain ⟨vacant, clean⟩ :=
      remove_releasable state.lawful classLawful origin state.vacant bound here visited
    obtain ⟨lawful, split, -⟩ := state.lawful.remove classLawful bound here.1
    rw [work.removes idx area state.lawful bound here (clean idx bound (Nat.le_refl _))]
    refine ⟨⟨lawful, vacant, ?_⟩, clean⟩
    have gone : ¬ ¬ rel (content (area.pElement idx)) := not_not.2 here.2
    rw [← state.kept, split, Multiset.filter_cons_of_neg (p := fun entry => ¬ rel entry) _ gone]
  · rw [work.stays idx area here]
    refine ⟨state, fun j target from_ => ?_⟩
    by_cases same : dist nElem empty idx = dist nElem empty j
    · rw [← dist_inj origin bound target same]
      exact here
    · exact visited j target (by omega)

/-- The rest of the pass releases everything. -/
theorem procLoop_spec (start : LockArea Elem) (fuel : Nat) :
    ∀ idx < nElem, ∀ area, idx ≠ empty → dist nElem empty idx ≤ fuel →
      Releasing xClass content key xCalcHash nElem rel empty start area →
      (∀ j < nElem, dist nElem empty idx < dist nElem empty j →
        ¬ area.Releasable xClass content rel j) →
      Releasing xClass content key xCalcHash nElem rel empty start
          (procLoop nElem slot empty fuel idx area) ∧
        ∀ j < nElem,
          ¬ (procLoop nElem slot empty fuel idx area).Releasable xClass content rel j := by
  induction fuel with
  | zero =>
    intro idx bound area apart enough
    exact absurd ((dist_eq_zero origin bound).1 (Nat.le_zero.1 enough)) apart
  | succ fuel ih =>
    intro idx bound area apart enough state visited
    obtain ⟨state', clean⟩ := state.visit classLawful work origin bound visited
    unfold procLoop
    generalize slot idx area = area' at state' clean
    have back := dist_prev origin bound apart
    have positive : dist nElem empty idx ≠ 0 :=
      fun zero => apart ((dist_eq_zero origin bound).1 zero)
    by_cases closed : xIndexPrev nElem idx = empty
    · simp only [closed, if_true]
      refine ⟨state', fun j target => ?_⟩
      by_cases first : j = empty
      · intro releasable
        have used := releasable.1
        rw [first, state'.vacant] at used
        cases used
      · have zero := (dist_eq_zero origin (prev_lt bound)).2 closed
        have away : dist nElem empty j ≠ 0 :=
          fun zero => first ((dist_eq_zero origin target).1 zero)
        exact clean j target (by omega)
    · simp only [closed, if_false]
      apply ih (prev nElem idx) (prev_lt bound) area' closed (by omega) state'
      intro j target later
      exact clean j target (by omega)

end

/-- The work at one slot while it is to be released. -/
def removeLoop (xClass : IpcClass Elem) (content : Elem → Content) (nElem : Nat)
    (rel : Content → Prop) [DecidablePred rel] (idx : Nat) : Nat → LockArea Elem → LockArea Elem
  | 0, area => area
  | fuel + 1, area =>
    if xClass.xElemIsValid (area.pElement idx) = true ∧ rel (content (area.pElement idx)) then
      removeLoop xClass content nElem rel idx fuel
        (removeSlot xClass nElem area (home xClass area.pElement idx) idx)
    else area

/-- The loop is such work. -/
theorem removeLoop_releases (key : Content → Key) (xCalcHash : Key → Nat) (fuel : Nat) :
    Releases xClass content key xCalcHash nElem rel
      (fun idx area => removeLoop xClass content nElem rel idx (fuel + 1) area) := by
  have stays : ∀ (fuel idx : Nat) (area : LockArea Elem),
      ¬ area.Releasable xClass content rel idx →
      removeLoop xClass content nElem rel idx fuel area = area := by
    intro fuel idx area none
    cases fuel with
    | zero => rfl
    | succ fuel => exact if_neg none
  refine ⟨stays (fuel + 1), fun idx area _ _ here gone => ?_⟩
  exact (if_pos here).trans (stays fuel idx _ gone)

/-- Two ways to work that agree where a release comes. -/
theorem unlockProcCore_congr {P : LockArea Elem → Prop}
    {slot' : Nat → LockArea Elem → LockArea Elem}
    (agree : ∀ idx < nElem, ∀ area, P area → slot idx area = slot' idx area)
    (keeps : ∀ idx < nElem, ∀ area, P area → P (slot idx area)) (start : idx < nElem)
    (first : procStartLoop xClass nElem area nElem (nElem - 1) = idx) (holds : P area) :
    unlockProcCore xClass nElem slot area = unlockProcCore xClass nElem slot' area := by
  have loop : ∀ (fuel : Nat), ∀ idx < nElem, ∀ (area : LockArea Elem), P area →
      ∀ idxStart, procLoop nElem slot idxStart fuel idx area =
        procLoop nElem slot' idxStart fuel idx area := by
    intro fuel
    induction fuel with
    | zero => exact fun _ _ _ _ _ => rfl
    | succ fuel ih =>
      intro idx bound area holds idxStart
      have kept := keeps idx bound area holds
      unfold procLoop
      rw [← agree idx bound area holds]
      dsimp only
      split_ifs
      · rfl
      · exact ih _ (prev_lt bound) _ kept idxStart
  unfold unlockProcCore
  rw [first]
  exact loop nElem idx start area holds idx

/-- A release keeps the entries that are to stay. -/
theorem Lawful.unlockProcCore (lawful : area.Lawful xClass content key xCalcHash nElem)
    (classLawful : xClass.Lawful content) (two : 2 ≤ nElem)
    (work : Releases xClass content key xCalcHash nElem rel slot) :
    (Ipc.unlockProcCore xClass nElem slot area).Lawful xClass content key xCalcHash nElem ∧
      stored xClass content nElem (Ipc.unlockProcCore xClass nElem slot area).pElement =
        (stored xClass content nElem area.pElement).filter fun entry => ¬ rel entry := by
  unfold Ipc.unlockProcCore
  obtain ⟨origin, vacant⟩ := lawful.procStart_spec two
  generalize procStartLoop xClass nElem area nElem (nElem - 1) = empty at origin vacant
  obtain ⟨size, sized⟩ : ∃ size, nElem = size + 1 := ⟨nElem - 1, by omega⟩
  have first : procLoop nElem slot empty nElem empty area =
      procLoop nElem slot empty size (prev nElem empty) area := by
    have apart : xIndexPrev nElem empty ≠ empty := by
      rw [xIndexPrev_eq, prev_eq_ite origin]
      split_ifs <;> omega
    have idle : slot empty area = area := by
      apply work.stays
      intro releasable
      rw [releasable.1] at vacant
      cases vacant
    rw [show procLoop nElem slot empty nElem empty area =
      procLoop nElem slot empty (size + 1) empty area by rw [← sized], procLoop, idle]
    simp only [apart, if_false]
    rfl
  have farthest := dist_prev_self origin
  obtain ⟨state, clean⟩ := procLoop_spec classLawful work origin area size
    (prev nElem empty) (prev_lt origin) area
    (by intro same; rw [same, (dist_eq_zero origin origin).2 rfl] at farthest; omega)
    (by omega) ⟨lawful, vacant, rfl⟩
    (by
      intro j target later
      have := dist_lt (a := empty) target
      omega)
  rw [first, ← state.kept]
  refine ⟨state.lawful, (Multiset.filter_eq_self.2 ?_).symm⟩
  intro entry member released
  obtain ⟨idx, bound, valid, rfl⟩ := mem_stored.1 member
  exact clean idx bound ⟨valid, released⟩

end Release

end LockArea

end SQLumDash.Ipc
