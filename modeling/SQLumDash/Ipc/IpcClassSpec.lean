import SQLumDash.Ipc.IpcClass
import Mathlib.Data.Multiset.Basic
import Mathlib.Data.Multiset.MapFold

/-!
# Search and deletion in a lock area

A deletion removes one entry and keeps the others reachable from their hash. Distances are measured
from the empty slot that ends the cluster, so that no cluster wraps and the three patterns of the
deletion are one comparison.
-/

namespace SQLumDash.Ipc

open Probing Function
open Finset (mem_erase mem_filter mem_range insert_erase insert_val_of_notMem notMem_erase)

/-- The forward step of the source is the ring's. -/
theorem xIndexNext_eq (nElem idx : Nat) : xIndexNext nElem idx = next nElem idx := rfl

/-- The backward step of the source is the ring's. -/
theorem xIndexPrev_eq (nElem idx : Nat) : xIndexPrev nElem idx = prev nElem idx := rfl

/-- What copying carries over decides validity and hash. -/
structure IpcClass.Lawful {Elem Content : Type} (xClass : IpcClass Elem)
    (content : Elem → Content) : Prop where
  copy : ∀ dest src, content (xClass.xElemCopy dest src) = content src
  valid : ∀ a b, content a = content b → xClass.xElemIsValid a = xClass.xElemIsValid b
  hash : ∀ a b, content a = content b → xClass.xElemHash a = xClass.xElemHash b
  clear : ∀ elem, xClass.xElemIsValid (xClass.xElemClear elem) = false

section

variable {Elem Content : Type} (xClass : IpcClass Elem) (content : Elem → Content) (nElem : Nat)

section

variable (data : Nat → Elem)

/-- The occupied slots of an area. -/
def occupied (idx : Nat) : Bool := xClass.xElemIsValid (data idx)

/-- The home slots of an area. -/
def home (idx : Nat) : Nat := xClass.xElemHash (data idx)

/-- The slots that hold an entry. -/
def validSlots : Finset Nat :=
  (Finset.range nElem).filter fun idx => xClass.xElemIsValid (data idx) = true

/-- The contents an area stores, with multiplicity. -/
def stored : Multiset Content :=
  (validSlots xClass nElem data).val.map fun idx => content (data idx)

/-- The contents an area stores outside one slot. -/
def storedExcept (hole : Nat) : Multiset Content :=
  ((validSlots xClass nElem data).erase hole).val.map fun idx => content (data idx)

/-- What each answer says about the slots visited. -/
def SearchSpec (target : Elem) (hash : Nat) : Search → Prop
  | .found idx => idx < nElem ∧ xClass.xElemIsValid (data idx) = true ∧
      xClass.xElemIsTarget (data idx) target = true
  | .free idx => idx < nElem ∧ xClass.xElemIsValid (data idx) = false ∧
      ∀ j < nElem, dist nElem hash j < dist nElem hash idx →
        xClass.xElemIsValid (data j) = true ∧ xClass.xElemIsTarget (data j) target = false
  | .full => ∀ j < nElem,
      xClass.xElemIsValid (data j) = true ∧ xClass.xElemIsTarget (data j) target = false

end

variable {xClass content nElem} {data : Nat → Elem} {target : Elem}
  {hash hole empty idxStart idxEnd idx : Nat}

/-- The loop knows the slots already visited. -/
theorem searchLoop_spec (hashBound : hash < nElem) (fuel : Nat) :
    ∀ idx < nElem, nElem - dist nElem hash idx ≤ fuel →
      (∀ j < nElem, dist nElem hash j < dist nElem hash idx →
        xClass.xElemIsValid (data j) = true ∧ xClass.xElemIsTarget (data j) target = false) →
      SearchSpec xClass nElem data target hash
        (searchLoop xClass nElem data target hash fuel idx) := by
  induction fuel with
  | zero =>
    intro idx bound enough
    have short := dist_lt (a := hash) bound
    omega
  | succ fuel ih =>
    intro idx bound enough visited
    unfold searchLoop
    cases valid : xClass.xElemIsValid (data idx) with
    | false => exact ⟨bound, valid, visited⟩
    | true =>
      cases hit : xClass.xElemIsTarget (data idx) target with
      | true => exact ⟨bound, valid, hit⟩
      | false =>
        by_cases last : xIndexNext nElem idx = hash
        · simp only [if_true, Bool.false_eq_true, if_false, last]
          exact visit_all hashBound bound last visited ⟨valid, hit⟩
        · simp only [if_true, Bool.false_eq_true, if_false, last]
          apply ih (next nElem idx) (next_lt bound)
          · rw [dist_next_of_ne hashBound bound last]
            omega
          · exact visit_next hashBound bound last visited ⟨valid, hit⟩

/-- The search keeps its promise. -/
theorem rowlockIpcSearch_spec (xClass : IpcClass Elem) (data : Nat → Elem) (target : Elem)
    (hashBound : hash < nElem) :
    SearchSpec xClass nElem data target hash (rowlockIpcSearch xClass nElem data target hash) := by
  apply searchLoop_spec hashBound nElem hash hashBound (Nat.sub_le _ _)
  intro j target near
  rw [(dist_eq_zero hashBound hashBound).2 rfl] at near
  omega

/-- The loop reports the first slot with the target. -/
theorem searchLoop_first (hashBound : hash < nElem) {stop : Nat} (fuel : Nat) :
    ∀ idx < nElem,
      (∀ j < nElem, dist nElem hash j < dist nElem hash idx →
        xClass.xElemIsTarget (data j) target = false) →
      searchLoop xClass nElem data target hash fuel idx = .found stop →
      ∀ j < nElem, dist nElem hash j < dist nElem hash stop →
        xClass.xElemIsTarget (data j) target = false := by
  induction fuel with
  | zero => exact fun _ _ _ found => nomatch found
  | succ fuel ih =>
    intro idx bound visited found
    unfold searchLoop at found
    cases valid : xClass.xElemIsValid (data idx) with
    | false =>
      simp only [valid, Bool.false_eq_true, if_false] at found
      cases found
    | true =>
      simp only [valid, if_true] at found
      cases hit : xClass.xElemIsTarget (data idx) target with
      | true =>
        simp only [hit, if_true, Search.found.injEq] at found
        rw [← found]
        exact visited
      | false =>
        simp only [hit, Bool.false_eq_true, if_false] at found
        by_cases last : xIndexNext nElem idx = hash
        · simp only [last, if_true] at found
          cases found
        · simp only [last, if_false] at found
          exact ih (next nElem idx) (next_lt bound)
            (visit_next hashBound bound last visited hit) found

/-- The search reports the first slot with the target. -/
theorem rowlockIpcSearch_first (hashBound : hash < nElem)
    (found : rowlockIpcSearch xClass nElem data target hash = .found idx) :
    ∀ j < nElem, dist nElem hash j < dist nElem hash idx →
      xClass.xElemIsTarget (data j) target = false := by
  apply searchLoop_first hashBound nElem hash hashBound _ found
  intro j _ near
  rw [(dist_eq_zero hashBound hashBound).2 rfl] at near
  omega

/-- The forward loop stops at the first empty slot. -/
theorem emptyLoop_spec (hashBound : hash < nElem)
    (vacancy : ∃ j < nElem, xClass.xElemIsValid (data j) = false) (fuel : Nat) :
    ∀ idx < nElem, nElem - dist nElem hash idx ≤ fuel →
      (∀ j < nElem, dist nElem hash j < dist nElem hash idx →
        xClass.xElemIsValid (data j) = true) →
      let stop := emptyLoop xClass nElem data hash fuel idx
      stop < nElem ∧ xClass.xElemIsValid (data stop) = false ∧
        ∀ j < nElem, dist nElem hash j < dist nElem hash stop →
          xClass.xElemIsValid (data j) = true := by
  induction fuel with
  | zero =>
    intro idx bound enough
    have short := dist_lt (a := hash) bound
    omega
  | succ fuel ih =>
    intro idx bound enough visited
    unfold emptyLoop
    cases valid : xClass.xElemIsValid (data idx) with
    | false => exact ⟨bound, valid, visited⟩
    | true =>
      by_cases last : xIndexNext nElem idx = hash
      · obtain ⟨j, target, vacant⟩ := vacancy
        have used := visit_all hashBound bound last visited valid j target
        rw [vacant] at used
        cases used
      · simp only [if_true, last, if_false]
        apply ih (next nElem idx) (next_lt bound)
        · rw [dist_next_of_ne hashBound bound last]
          omega
        · exact visit_next hashBound bound last visited valid

/-- The backward loop stops before the cluster. -/
theorem startLoop_spec (origin : empty < nElem) (vacant : xClass.xElemIsValid (data empty) = false)
    (fuel : Nat) :
    ∀ idx < nElem, dist nElem empty idx + 1 < nElem → dist nElem empty idx < fuel →
      (∀ j < nElem, dist nElem empty idx < dist nElem empty j →
        xClass.xElemIsValid (data j) = true) →
      let stop := startLoop xClass nElem data (prev nElem empty) fuel idx
      stop < nElem ∧ xClass.xElemIsValid (data stop) = false ∧
        dist nElem empty stop ≤ dist nElem empty idx ∧
        ∀ j < nElem, dist nElem empty stop < dist nElem empty j →
          xClass.xElemIsValid (data j) = true := by
  induction fuel with
  | zero => intro idx bound inside enough; omega
  | succ fuel ih =>
    intro idx bound inside enough visited
    unfold startLoop
    cases valid : xClass.xElemIsValid (data idx) with
    | false => exact ⟨bound, valid, Nat.le_refl _, visited⟩
    | true =>
      have moved : idx ≠ empty := by
        rintro rfl
        rw [vacant] at valid
        cases valid
      have away : dist nElem empty idx ≠ 0 :=
        fun zero => moved ((dist_eq_zero origin bound).1 zero)
      have step := dist_prev origin bound moved
      have notEnd : xIndexPrev nElem idx ≠ prev nElem empty := by
        intro same
        have farthest := dist_prev_self origin
        rw [← same, xIndexPrev_eq, step] at farthest
        omega
      simp only [if_true, notEnd, if_false]
      have rest := ih (prev nElem idx) (prev_lt bound) (by omega) (by omega) (by
        intro j target later
        rw [step] at later
        by_cases same : dist nElem empty j = dist nElem empty idx
        · rw [dist_inj origin target bound same]
          exact valid
        · exact visited j target (by omega))
      exact ⟨rest.1, rest.2.1, rest.2.2.1.trans (by omega), rest.2.2.2⟩

/-- Inside the cluster, the three patterns are one comparison. -/
theorem xIsTarget_iff (origin : empty < nElem) (startBound : idxStart < nElem)
    (holeBound : hole < nElem) (homeBound : home xClass data idx < nElem)
    (started : 0 < dist nElem empty idxStart)
    (holeInside : dist nElem empty idxStart ≤ dist nElem empty hole)
    (homeInside : dist nElem empty idxStart ≤ dist nElem empty (home xClass data idx)) :
    xIsTarget xClass data idxStart hole (prev nElem empty) idx = true ↔
      dist nElem empty (home xClass data idx) ≤ dist nElem empty hole := by
  unfold xIsTarget isTargetPattern1and2 isTargetPattern3
  unfold home at *
  rw [dist_eq_ite origin startBound] at started holeInside homeInside
  rw [dist_eq_ite origin holeBound] at holeInside ⊢
  rw [dist_eq_ite origin homeBound] at homeInside ⊢
  rw [prev_eq_ite origin]
  split_ifs at * <;> simp only [decide_eq_true_eq] <;> omega

/-- The farthest slot that may be moved, or the hole. -/
theorem moverLoop_spec (isTarget : Nat → Bool) (origin : empty < nElem) (holeBound : hole < nElem)
    (inside : hole ≠ empty) (fuel : Nat) :
    ∀ idx < nElem, dist nElem empty hole ≤ dist nElem empty idx →
      dist nElem empty idx - dist nElem empty hole < fuel →
      let found := moverLoop nElem isTarget hole fuel idx
      found < nElem ∧ dist nElem empty hole ≤ dist nElem empty found ∧
        (found = hole ∨ isTarget found = true) ∧
        ∀ j < nElem, dist nElem empty found < dist nElem empty j →
          dist nElem empty j ≤ dist nElem empty idx → isTarget j = false := by
  induction fuel with
  | zero => intro idx bound after enough; omega
  | succ fuel ih =>
    intro idx bound after enough
    unfold moverLoop
    by_cases atHole : idx = hole
    · rw [if_pos atHole]
      exact ⟨bound, after, .inl atHole, fun j target later upTo => by omega⟩
    · cases hit : isTarget idx with
      | true =>
        simp only [atHole, if_false, if_true]
        exact ⟨bound, after, .inr hit, fun j target later upTo => by omega⟩
      | false =>
        simp only [atHole, if_false, Bool.false_eq_true]
        have away : dist nElem empty hole ≠ 0 :=
          fun zero => inside ((dist_eq_zero origin holeBound).1 zero)
        have moved : idx ≠ empty := by
          rintro rfl
          have zero := (dist_eq_zero origin origin).2 rfl
          omega
        have apart : dist nElem empty idx ≠ dist nElem empty hole :=
          fun same => atHole (dist_inj origin bound holeBound same)
        have step := dist_prev origin bound moved
        have rest := ih (prev nElem idx) (prev_lt bound) (by omega) (by omega)
        refine ⟨rest.1, rest.2.1, rest.2.2.1, fun j target later upTo => ?_⟩
        by_cases same : dist nElem empty j = dist nElem empty idx
        · rw [dist_inj origin target bound same]
          exact hit
        · exact rest.2.2.2 j target later (by rw [step]; omega)

/-- A slot about to be emptied, in the occupied cluster from `idxStart` to before `empty`. -/
structure Hole (xClass : IpcClass Elem) (nElem : Nat) (data : Nat → Elem)
    (empty idxStart hole : Nat) : Prop where
  reach : Reachable nElem (occupied xClass data) (home xClass data)
  origin : empty < nElem
  vacant : xClass.xElemIsValid (data empty) = false
  startBound : idxStart < nElem
  holeBound : hole < nElem
  started : 0 < dist nElem empty idxStart
  inside : dist nElem empty idxStart ≤ dist nElem empty hole
  cluster : ∀ j < nElem, dist nElem empty idxStart ≤ dist nElem empty j →
    xClass.xElemIsValid (data j) = true

/-- An unlock finds the end of the cluster. -/
theorem hole_of_emptyLoop (reach : Reachable nElem (occupied xClass data) (home xClass data))
    (vacancy : ∃ j < nElem, xClass.xElemIsValid (data j) = false) (bound : hole < nElem)
    (valid : xClass.xElemIsValid (data hole) = true) :
    Hole xClass nElem data
      (emptyLoop xClass nElem data (home xClass data hole) nElem (next nElem hole))
      (home xClass data hole) hole := by
  obtain ⟨homeBound, path⟩ := reach hole bound valid
  have before : ∀ j < nElem, dist nElem (home xClass data hole) j <
      dist nElem (home xClass data hole) hole → xClass.xElemIsValid (data j) = true :=
    fun j target near => path j target near.le
  have open' : next nElem hole ≠ home xClass data hole := by
    intro closed
    obtain ⟨j, target, vacant⟩ := vacancy
    have used := visit_all homeBound bound closed before valid j target
    rw [vacant] at used
    cases used
  obtain ⟨stopBound, vacant, visited⟩ := emptyLoop_spec homeBound vacancy nElem (next nElem hole)
    (next_lt bound) (Nat.sub_le _ _) (visit_next homeBound bound open' before valid)
  generalize emptyLoop xClass nElem data (home xClass data hole) nElem (next nElem hole) = stop
    at stopBound vacant visited
  have used : ∀ j < nElem, dist nElem (home xClass data hole) j ≤
      dist nElem (home xClass data hole) hole → j ≠ stop := by
    rintro j target near rfl
    have stored := path j target near
    unfold occupied at stored
    rw [vacant] at stored
    cases stored
  have homeApart : home xClass data hole ≠ stop := by
    apply used _ homeBound
    rw [(dist_eq_zero homeBound homeBound).2 rfl]
    exact Nat.zero_le _
  refine ⟨reach, stopBound, vacant, homeBound, bound, ?_, ?_, ?_⟩
  · apply Nat.pos_of_ne_zero
    intro zero
    exact homeApart ((dist_eq_zero stopBound homeBound).1 zero)
  · apply dist_le_of_avoids stopBound homeBound bound
    intro meets
    exact used stop stopBound meets rfl
  · intro j target later
    exact visited j target (dist_lt_of_le stopBound homeBound target homeApart later)

namespace Hole

section

variable (h : Hole xClass nElem data empty idxStart hole)

include h

/-- The hole is used. -/
theorem hole_ne_empty : hole ≠ empty := by
  rintro rfl
  have zero := (dist_eq_zero h.origin h.origin).2 rfl
  have started := h.started
  have inside := h.inside
  omega

/-- The hole is used. -/
theorem hole_valid : xClass.xElemIsValid (data hole) = true := h.cluster hole h.holeBound h.inside

/-- Walking back to the start of the cluster. -/
theorem widen :
    let before := startLoop xClass nElem data (prev nElem empty) nElem (prev nElem idxStart)
    Hole xClass nElem data empty (next nElem before) hole ∧ before < nElem ∧
      xClass.xElemIsValid (data before) = false ∧
      dist nElem empty (next nElem before) = dist nElem empty before + 1 := by
  have notEmpty : idxStart ≠ empty := by
    intro same
    have zero := (dist_eq_zero h.origin h.startBound).2 same
    have started := h.started
    omega
  have back := dist_prev h.origin h.startBound notEmpty
  have short := dist_lt (a := empty) h.startBound
  have started := h.started
  obtain ⟨bound, vacant, upTo, visited⟩ := startLoop_spec h.origin h.vacant nElem
    (prev nElem idxStart) (prev_lt h.startBound) (by omega) (by omega) (by
      intro j target later
      exact h.cluster j target (by omega))
  generalize startLoop xClass nElem data (prev nElem empty) nElem (prev nElem idxStart) = before
    at bound vacant upTo visited
  have step : dist nElem empty (next nElem before) = dist nElem empty before + 1 := by
    rw [dist_next h.origin bound]
    exact if_neg (by omega)
  have inside := h.inside
  refine ⟨⟨h.reach, h.origin, h.vacant, next_lt bound, h.holeBound, by omega, by omega, ?_⟩,
    bound, vacant, step⟩
  intro j target later
  exact visited j target (by omega)

/-- Elements behind the hole have their home inside. -/
theorem home_inside {before : Nat} (beforeBound : before < nElem)
    (vacant : xClass.xElemIsValid (data before) = false)
    (step : dist nElem empty idxStart = dist nElem empty before + 1) (bound : idx < nElem)
    (behind : dist nElem empty hole ≤ dist nElem empty idx) :
    dist nElem empty idxStart ≤ dist nElem empty (home xClass data idx) := by
  have inside := h.inside
  have used := h.cluster idx bound (inside.trans behind)
  by_contra outside
  have path := h.reach.path_occupied h.origin h.vacant bound used beforeBound
    (by omega) (by omega)
  unfold occupied at path
  rw [vacant] at path
  cases path

/-- Filling the hole moves it to where the element came from. -/
theorem fill {source : Nat} (lawful : xClass.Lawful content) (sourceBound : source < nElem)
    (behind : dist nElem empty hole ≤ dist nElem empty source)
    (admissible : dist nElem empty (home xClass data source) ≤ dist nElem empty hole) :
    Hole xClass nElem
      (update data hole (xClass.xElemCopy (data hole) (data source)))
      empty idxStart source := by
  have used := h.cluster source sourceBound (h.inside.trans behind)
  have copied := lawful.copy (data hole) (data source)
  have validSame : ∀ j, xClass.xElemIsValid
      (update data hole (xClass.xElemCopy (data hole) (data source)) j) =
      xClass.xElemIsValid (data j) := by
    intro j
    by_cases same : j = hole
    · rw [same, update_self, lawful.valid _ _ copied, used, h.hole_valid]
    · rw [update_of_ne same]
  obtain ⟨homeBound, -⟩ := h.reach source sourceBound used
  have onPath := (dist_le_iff_between h.origin homeBound h.holeBound sourceBound
    (admissible.trans behind)).2 ⟨admissible, behind⟩
  refine ⟨?_, h.origin, ?_, h.startBound, sourceBound, h.started, h.inside.trans behind, ?_⟩
  · have filled := h.reach.fill
      (home xClass (update data hole (xClass.xElemCopy (data hole) (data source))))
      sourceBound used h.holeBound onPath
      (by
        simp only [home, update_self]
        exact lawful.hash _ _ copied)
      (by
        intro j other
        simp only [home, update_of_ne other])
    have same : occupied xClass
        (update data hole (xClass.xElemCopy (data hole) (data source))) =
        occupied xClass data := funext validSame
    rw [same]
    exact filled
  · rw [validSame]
    exact h.vacant
  · intro j target later
    rw [validSame]
    exact h.cluster j target later

/-- A hole that no later element needs may be cleared. -/
theorem clear (lawful : xClass.Lawful content)
    (unneeded : ∀ j < nElem, dist nElem empty hole < dist nElem empty j →
      ¬ dist nElem empty (home xClass data j) ≤ dist nElem empty hole) : Reachable nElem
      (occupied xClass (update data hole (xClass.xElemClear (data hole))))
      (home xClass (update data hole (xClass.xElemClear (data hole)))) := by
  apply h.reach.clear hole
  · intro j bound other used meets
    obtain ⟨homeBound, -⟩ := h.reach j bound used
    have ordered := h.reach.home_le h.origin h.vacant bound used
    obtain ⟨lower, upper⟩ :=
      (dist_le_iff_between h.origin homeBound h.holeBound bound ordered).1 meets
    have apart : dist nElem empty hole ≠ dist nElem empty j :=
      fun same => other (dist_inj h.origin bound h.holeBound same.symm)
    exact unneeded j bound (by omega) lower
  · simp only [occupied, update_self]
    exact lawful.clear _
  · intro j other
    simp only [occupied, home, update_of_ne other, and_self]

/-- Filling the hole stores the same contents. -/
theorem storedExcept_fill {source : Nat} (lawful : xClass.Lawful content)
    (sourceBound : source < nElem) (other : source ≠ hole)
    (used : xClass.xElemIsValid (data source) = true) : storedExcept xClass content nElem
      (update data hole (xClass.xElemCopy (data hole) (data source))) source =
    storedExcept xClass content nElem data hole := by
  have copied := lawful.copy (data hole) (data source)
  have slots : validSlots xClass nElem
      (update data hole (xClass.xElemCopy (data hole) (data source))) =
      validSlots xClass nElem data := by
    apply Finset.filter_congr
    intro j _
    by_cases same : j = hole
    · rw [same, update_self, lawful.valid _ _ copied, used, h.hole_valid]
    · rw [update_of_ne same]
  have holeMem : hole ∈ (validSlots xClass nElem data).erase source := by
    simp only [validSlots, mem_erase, mem_filter, mem_range]
    exact ⟨other.symm, h.holeBound, h.hole_valid⟩
  have sourceMem : source ∈ (validSlots xClass nElem data).erase hole := by
    simp only [validSlots, mem_erase, mem_filter, mem_range]
    exact ⟨other, sourceBound, used⟩
  unfold storedExcept
  rw [slots, ← insert_erase holeMem, ← insert_erase sourceMem,
    insert_val_of_notMem (notMem_erase _ _),
    insert_val_of_notMem (notMem_erase _ _), Multiset.map_cons, Multiset.map_cons,
    update_self, copied, Finset.erase_right_comm]
  congr 1
  apply Multiset.map_congr rfl
  intro j member
  have apart : j ≠ hole := by
    have inErase : j ∈ ((validSlots xClass nElem data).erase hole).erase source := member
    exact (mem_erase.1 (mem_erase.1 inErase).2).1
  rw [update_of_ne apart]

end

end Hole

/-- Clearing a slot leaves the contents stored elsewhere. -/
theorem stored_clear (lawful : xClass.Lawful content) (data : Nat → Elem) (hole : Nat) :
    stored xClass content nElem (update data hole (xClass.xElemClear (data hole))) =
    storedExcept xClass content nElem data hole := by
  have slots : validSlots xClass nElem
      (update data hole (xClass.xElemClear (data hole))) =
      (validSlots xClass nElem data).erase hole := by
    ext j
    simp only [validSlots, mem_erase, mem_filter, mem_range]
    by_cases same : j = hole
    · subst same
      simp only [update_self, lawful.clear, Bool.false_eq_true, and_false, ne_eq,
        not_true_eq_false, false_and]
    · simp only [update_of_ne same, ne_eq, same, not_false_eq_true, true_and]
  unfold stored storedExcept
  rw [slots]
  apply Multiset.map_congr rfl
  intro j member
  have inErase : j ∈ (validSlots xClass nElem data).erase hole := member
  have apart : j ≠ hole := (mem_erase.1 inErase).1
  rw [update_of_ne apart]

/-- Storing an entry in an empty slot adds its content. -/
theorem stored_update {elem : Elem} (bound : idx < nElem)
    (vacant : xClass.xElemIsValid (data idx) = false) (valid : xClass.xElemIsValid elem = true) :
    stored xClass content nElem (update data idx elem) =
      content elem ::ₘ stored xClass content nElem data := by
  have fresh : idx ∉ validSlots xClass nElem data := by
    simp only [validSlots, mem_filter, vacant, Bool.false_eq_true, and_false,
      not_false_eq_true]
  have slots : validSlots xClass nElem (update data idx elem) =
      insert idx (validSlots xClass nElem data) := by
    ext j
    simp only [validSlots, Finset.mem_insert, mem_filter, mem_range]
    by_cases same : j = idx
    · subst same
      simp only [update_self, valid, bound, and_self, true_or]
    · simp only [update_of_ne same, same, false_or]
  unfold stored
  rw [slots, insert_val_of_notMem fresh, Multiset.map_cons, update_self]
  congr 1
  apply Multiset.map_congr rfl
  intro j member
  have apart : j ≠ idx := by
    rintro rfl
    exact fresh member
  rw [update_of_ne apart]

/-- Taking an occupied slot out takes its content out. -/
theorem stored_eq_cons (content : Elem → Content) (bound : hole < nElem)
    (valid : xClass.xElemIsValid (data hole) = true) :
    stored xClass content nElem data =
      content (data hole) ::ₘ storedExcept xClass content nElem data hole := by
  have member : hole ∈ validSlots xClass nElem data := by
    simp only [validSlots, mem_filter, mem_range, bound, valid, and_self]
  unfold stored storedExcept
  rw [← Multiset.map_cons (fun idx => content (data idx)), ← insert_val_of_notMem
    (notMem_erase hole _), insert_erase member]

/-- One round of the deletion. -/
theorem rowlockIpcDelete_succ (xClass : IpcClass Elem) (nElem fuel : Nat) (data : Nat → Elem)
    (idxStart idxDel idxEnd : Nat) :
    rowlockIpcDelete xClass nElem (fuel + 1) data idxStart idxDel idxEnd =
      let start := next nElem
        (startLoop xClass nElem data idxEnd nElem (prev nElem idxStart))
      let idx := moverLoop nElem (xIsTarget xClass data start idxDel idxEnd) idxDel nElem idxEnd
      if idx = idxDel then update data idxDel (xClass.xElemClear (data idxDel))
      else rowlockIpcDelete xClass nElem fuel
        (update data idxDel (xClass.xElemCopy (data idxDel) (data idx)))
        start idx idxEnd := rfl

/-- The last slot behind the hole whose entry may stand there. -/
def Filler (xClass : IpcClass Elem) (nElem : Nat) (data : Nat → Elem) (empty hole source : Nat) :
    Prop :=
  source < nElem ∧ dist nElem empty hole < dist nElem empty source ∧
    dist nElem empty (home xClass data source) ≤ dist nElem empty hole ∧
    ∀ j < nElem, dist nElem empty source < dist nElem empty j →
      ¬ dist nElem empty (home xClass data j) ≤ dist nElem empty hole

section

variable (h : Hole xClass nElem data empty idxStart hole) (lawful : xClass.Lawful content)

include h lawful

/-- A round finds the filler, or that there is none. -/
theorem Hole.round :
    let start := next nElem
      (startLoop xClass nElem data (prev nElem empty) nElem (prev nElem idxStart))
    let source := moverLoop nElem (xIsTarget xClass data start hole (prev nElem empty)) hole nElem
      (prev nElem empty)
    Hole xClass nElem data empty start hole ∧
      (source = hole ∧ (∀ j < nElem, dist nElem empty hole < dist nElem empty j →
          ¬ dist nElem empty (home xClass data j) ≤ dist nElem empty hole) ∨
        source ≠ hole ∧ Filler xClass nElem data empty hole source ∧
          xClass.xElemIsValid (data source) = true ∧
          Hole xClass nElem
            (update data hole (xClass.xElemCopy (data hole) (data source)))
            empty start source) := by
  obtain ⟨wide, beforeBound, vacant, step⟩ := h.widen
  dsimp only
  generalize startLoop xClass nElem data (prev nElem empty) nElem (prev nElem idxStart) = before
    at wide beforeBound vacant step
  have short := dist_lt (a := empty) h.holeBound
  have farthest := dist_prev_self h.origin
  -- Behind the hole, the pattern test is the comparison of the home with the hole.
  have test : ∀ j < nElem, dist nElem empty hole ≤ dist nElem empty j →
      (xIsTarget xClass data (next nElem before) hole (prev nElem empty) j = true ↔
        dist nElem empty (home xClass data j) ≤ dist nElem empty hole) := by
    intro j bound behind
    have used := h.cluster j bound (h.inside.trans behind)
    exact xIsTarget_iff h.origin wide.startBound h.holeBound (h.reach j bound used).1
      wide.started wide.inside (wide.home_inside beforeBound vacant step bound behind)
  obtain ⟨foundBound, behind, choice, passed⟩ :=
    moverLoop_spec (xIsTarget xClass data (next nElem before) hole (prev nElem empty))
      h.origin h.holeBound h.hole_ne_empty nElem (prev nElem empty) (prev_lt h.origin)
      (by omega) (by omega)
  generalize moverLoop nElem (xIsTarget xClass data (next nElem before) hole (prev nElem empty))
    hole nElem (prev nElem empty) = found at foundBound behind choice passed
  have refused : ∀ j < nElem, dist nElem empty found < dist nElem empty j →
      ¬ dist nElem empty (home xClass data j) ≤ dist nElem empty hole := by
    intro j bound later admissible
    have missed := passed j bound later
      (by rw [farthest]; have := dist_lt (a := empty) bound; omega)
    rw [(test j bound (by omega)).2 admissible] at missed
    cases missed
  refine ⟨wide, ?_⟩
  by_cases notFound : found = hole
  · rw [notFound] at refused
    exact Or.inl ⟨notFound, refused⟩
  · have admissible := (test found foundBound behind).1 (choice.resolve_left notFound)
    have apart : dist nElem empty hole ≠ dist nElem empty found :=
      fun same => notFound (dist_inj h.origin foundBound h.holeBound same.symm)
    exact Or.inr ⟨notFound, ⟨foundBound, by omega, admissible, refused⟩,
      wide.cluster _ foundBound (wide.inside.trans behind),
      wide.fill lawful foundBound behind admissible⟩

/-- The hole is cleared, or filled and the deletion goes on. -/
theorem Hole.delete_step (fuel : Nat) :
    let deleted := rowlockIpcDelete xClass nElem (fuel + 1) data idxStart hole (prev nElem empty)
    ((∀ j < nElem, dist nElem empty hole < dist nElem empty j →
        ¬ dist nElem empty (home xClass data j) ≤ dist nElem empty hole) ∧
      deleted = update data hole (xClass.xElemClear (data hole))) ∨
    ∃ source start, Filler xClass nElem data empty hole source ∧
      xClass.xElemIsValid (data source) = true ∧
      Hole xClass nElem (update data hole (xClass.xElemCopy (data hole) (data source)))
        empty start source ∧
      deleted = rowlockIpcDelete xClass nElem fuel
        (update data hole (xClass.xElemCopy (data hole) (data source)))
        start source (prev nElem empty) := by
  have unfolded := rowlockIpcDelete_succ xClass nElem fuel data idxStart hole (prev nElem empty)
  rw [unfolded]
  rcases (h.round lawful).2 with ⟨notFound, unneeded⟩ | ⟨found, filler, used, moved⟩
  · rw [if_pos notFound]
    exact Or.inl ⟨unneeded, rfl⟩
  · rw [if_neg found]
    exact Or.inr ⟨_, _, filler, used, moved, rfl⟩

end

/-- A deletion removes its content only, keeps the rest reachable, and leaves the slots before it.
-/
theorem rowlockIpcDelete_spec (lawful : xClass.Lawful content) (fuel : Nat) :
    ∀ (data : Nat → Elem) (idxStart hole : Nat),
      Hole xClass nElem data empty idxStart hole → nElem - dist nElem empty hole ≤ fuel →
      let data' := rowlockIpcDelete xClass nElem fuel data idxStart hole (prev nElem empty)
      Reachable nElem (occupied xClass data') (home xClass data') ∧
        stored xClass content nElem data' = storedExcept xClass content nElem data hole ∧
        ∀ j, nElem ≤ j ∨ dist nElem empty j < dist nElem empty hole → data' j = data j := by
  induction fuel with
  | zero =>
    intro data idxStart hole h enough
    have short := dist_lt (a := empty) h.holeBound
    omega
  | succ fuel ih =>
    intro data idxStart hole h enough
    have holeBound := h.holeBound
    rcases h.delete_step lawful fuel with
      ⟨unneeded, deleted⟩ | ⟨source, start, ⟨bound, behind, -⟩, used, moved, deleted⟩
    · simp only [deleted]
      refine ⟨h.clear lawful unneeded, stored_clear lawful data hole, fun j outside => ?_⟩
      apply update_of_ne
      rintro rfl
      omega
    · simp only [deleted]
      have apart : source ≠ hole := by
        rintro rfl
        omega
      obtain ⟨reach, contents, frame⟩ := ih _ _ _ moved (by omega)
      refine ⟨reach, contents.trans (h.storedExcept_fill lawful bound apart used), fun j outside => ?_⟩
      rw [frame j (outside.imp_right fun earlier => by omega)]
      apply update_of_ne
      rintro rfl
      omega

end

end SQLumDash.Ipc
