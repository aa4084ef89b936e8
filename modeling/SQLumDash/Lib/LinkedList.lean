import Mathlib.Data.List.Nodup
import Mathlib.Logic.Function.Basic

/-!
# Doubly linked lists in memory

Cells point to their neighbours by address. A segment is a list of addresses whose cells point to
each other in that order.
-/

namespace LinkedList

open Function

/-- A cell with its neighbours. -/
structure Cell (α : Type) where
  next : Option Nat
  prev : Option Nat
  value : α
deriving DecidableEq, Repr

/-- The cells in use, by address. -/
abbrev Memory (α : Type) := Nat → Option (Cell α)

variable {α : Type}

/-- Write the next pointer of a cell, if there is one. -/
def setNext (mem : Memory α) (cell next : Option Nat) : Memory α :=
  match cell with
  | none => mem
  | some a => update mem a ((mem a).map fun c => { c with next := next })

/-- Write the previous pointer of a cell, if any. -/
def setPrev (mem : Memory α) (cell prev : Option Nat) : Memory α :=
  match cell with
  | none => mem
  | some a => update mem a ((mem a).map fun c => { c with prev := prev })

/-- Link a new cell between two neighbours. -/
def link (mem : Memory α) (new : Nat) (value : α) (prev next : Option Nat) : Memory α :=
  setPrev (setNext (update mem new (some ⟨next, prev, value⟩)) prev (some new)) next (some new)

/-- Let the neighbours of a cell point to each other. -/
def unlink (mem : Memory α) (cell : Nat) (prev next : Option Nat) : Memory α :=
  update (setPrev (setNext mem prev next) next prev) cell none

/-- The first of at most `count` cells that passes a test. -/
def findLoop (mem : Memory α) (test : α → Bool) : Nat → Option Nat → Option Nat
  | 0, _ => none
  | _ + 1, none => none
  | count + 1, some a =>
    match mem a with
    | none => none
    | some cell => if test cell.value then some a else findLoop mem test count cell.next

/-- The addresses of at most `count` cells. -/
def traverse (mem : Memory α) : Nat → Option Nat → List Nat
  | 0, _ => []
  | _ + 1, none => []
  | count + 1, some a =>
    match mem a with
    | none => []
    | some cell => a :: traverse mem count cell.next

/-- The cells of the list point to each other, between `prev` and `next`. -/
def Segment (mem : Memory α) : Option Nat → List Nat → Option Nat → Prop
  | _, [], _ => True
  | prev, a :: rest, next =>
    (∃ value, mem a = some ⟨rest.head?.or next, prev, value⟩) ∧ Segment mem (some a) rest next

variable {mem mem' : Memory α} {prev next : Option Nat} {before after : List Nat} {a new : Nat}
  {value : α}

/-- Two segments in a row. -/
theorem Segment.append :
    Segment mem prev (before ++ after) next ↔
      Segment mem prev before (after.head?.or next) ∧
        Segment mem (before.getLast?.or prev) after next := by
  induction before generalizing prev with
  | nil => simp [Segment]
  | cons a rest ih =>
    have last : (a :: rest).getLast?.or prev = rest.getLast?.or (some a) := by
      rw [List.getLast?_cons]
      cases rest.getLast? <;> rfl
    rw [List.cons_append, Segment, Segment, ih, last, List.head?_append, Option.or_assoc, and_assoc]

/-- Other cells stay. -/
theorem setNext_of_ne {cell : Option Nat} (apart : cell ≠ some a) :
    setNext mem cell next a = mem a := by
  cases cell with
  | none => rfl
  | some b => exact update_of_ne (fun same => apart (congrArg some same.symm)) _ _

/-- Other cells stay. -/
theorem setPrev_of_ne {cell : Option Nat} (apart : cell ≠ some a) :
    setPrev mem cell prev a = mem a := by
  cases cell with
  | none => rfl
  | some b => exact update_of_ne (fun same => apart (congrArg some same.symm)) _ _

section

variable (segment : Segment mem prev before next)

include segment

/-- Other cells do not matter. -/
theorem Segment.frame (same : ∀ a ∈ before, mem' a = mem a) : Segment mem' prev before next := by
  induction before generalizing prev with
  | nil => trivial
  | cons a rest ih =>
    refine ⟨?_, ih segment.2 fun b member => same b (List.mem_cons_of_mem _ member)⟩
    rw [same a List.mem_cons_self]
    exact segment.1

/-- A segment whose cells hold other values. -/
theorem Segment.withValues {f : Nat → α → α}
    (written : ∀ a, mem' a = (mem a).map fun cell => { cell with value := f a cell.value }) :
    Segment mem' prev before next := by
  induction before generalizing prev with
  | nil => trivial
  | cons a rest ih =>
    obtain ⟨value, cell⟩ := segment.1
    refine ⟨⟨f a value, ?_⟩, ih segment.2⟩
    rw [written a, cell]
    rfl

/-- Every cell of a segment is in use. -/
theorem Segment.mem_some (member : a ∈ before) :
    (mem a).isSome = true := by
  induction before generalizing prev with
  | nil => cases member
  | cons b rest ih =>
    rcases List.mem_cons.1 member with rfl | inside
    · obtain ⟨value, cell⟩ := segment.1
      rw [cell]
      rfl
    · exact ih segment.2 inside

/-- A segment with another cell after it. -/
theorem Segment.setNext {next' : Option Nat} (distinct : before.Nodup) :
    Segment (LinkedList.setNext mem before.getLast? next') prev before next' := by
  rcases List.eq_nil_or_concat before with rfl | ⟨front, last, rfl⟩
  · trivial
  · rw [List.concat_eq_append] at segment distinct ⊢
    have fresh : last ∉ front := by
      intro member
      exact (List.nodup_append.1 distinct).2.2 last member last (List.mem_singleton_self _) rfl
    obtain ⟨inside, ⟨value, cell⟩, -⟩ := Segment.append.1 segment
    have ends : (front ++ [last]).getLast? = some last := List.getLast?_concat
    rw [ends]
    refine Segment.append.2 ⟨inside.frame fun b member => setNext_of_ne ?_, ⟨value, ?_⟩, trivial⟩
    · intro same
      exact fresh (Option.some.inj same ▸ member)
    · change update mem last _ last = _
      rw [update_self, cell]
      rfl

end

/-- A segment with another cell before it. -/
theorem Segment.setPrev {prev' : Option Nat} (segment : Segment mem prev after next)
    (distinct : after.Nodup) :
    Segment (LinkedList.setPrev mem after.head? prev') prev' after next := by
  cases after with
  | nil => trivial
  | cons first rest =>
    obtain ⟨⟨value, cell⟩, inside⟩ := segment
    refine ⟨⟨value, ?_⟩, inside.frame fun b member => setPrev_of_ne ?_⟩
    · change update mem first _ first = _
      rw [update_self, cell]
      rfl
    · intro same
      exact (List.nodup_cons.1 distinct).1 (Option.some.inj same ▸ member)

/-- What a cell in the middle of a list points to. -/
theorem Segment.cell (segment : Segment mem none (before ++ a :: after) none) :
    ∃ value, mem a = some ⟨after.head?, before.getLast?, value⟩ := by
  obtain ⟨-, ⟨value, cell⟩, -⟩ := Segment.append.1 segment
  refine ⟨value, ?_⟩
  rw [cell, Option.or_none, Option.or_none]

/-- An absent cell is not the last. -/
theorem getLast?_ne (absent : a ∉ before) : before.getLast? ≠ some a := fun same =>
  absent (List.mem_of_getLast? same)

/-- An absent cell is not the first. -/
theorem head?_ne (absent : a ∉ after) : after.head? ≠ some a := fun same =>
  absent (List.mem_of_head? same)

/-- A cell linked in between. -/
theorem Segment.link (segment : Segment mem none (before ++ after) none)
    (distinct : (before ++ after).Nodup) (fresh : new ∉ before ++ after) :
    Segment (LinkedList.link mem new value before.getLast? after.head?) none
      (before ++ new :: after) none := by
  obtain ⟨front, back⟩ := Segment.append.1 segment
  obtain ⟨distinctFront, distinctBack, apart⟩ := List.nodup_append.1 distinct
  have outFront : new ∉ before := fun member => fresh (List.mem_append_left _ member)
  have outBack : new ∉ after := fun member => fresh (List.mem_append_right _ member)
  have across : ∀ a ∈ before, a ∉ after := fun a member inside => apart a member a inside rfl
  let grown := update mem new (some ⟨after.head?, before.getLast?, value⟩)
  have kept : ∀ a, a ≠ new → grown a = mem a := fun a other => update_of_ne other _ _
  unfold LinkedList.link
  refine Segment.append.2 ⟨?_, ⟨value, ?_⟩, ?_⟩
  · have added : Segment grown none before (after.head?.or none) :=
      front.frame fun a member => kept a fun same => outFront (same ▸ member)
    refine (added.setNext distinctFront).frame fun a member => setPrev_of_ne ?_
    exact head?_ne (across a member)
  · rw [setPrev_of_ne (head?_ne outBack), setNext_of_ne (getLast?_ne outFront),
      update_self]
    simp
  · have added : Segment (LinkedList.setNext grown before.getLast? (some new))
        (before.getLast?.or none) after none := by
      refine back.frame fun a member => ?_
      rw [setNext_of_ne (getLast?_ne fun inside => across a inside member)]
      exact kept a fun same => outBack (same ▸ member)
    exact added.setPrev distinctBack

/-- A cell taken out of the middle. -/
theorem Segment.unlink (segment : Segment mem none (before ++ a :: after) none)
    (distinct : (before ++ a :: after).Nodup) :
    Segment (LinkedList.unlink mem a before.getLast? after.head?) none (before ++ after) none := by
  obtain ⟨front, -, back⟩ := Segment.append.1 segment
  obtain ⟨distinctFront, distinctRest, apart⟩ := List.nodup_append.1 distinct
  obtain ⟨outBack, distinctBack⟩ := List.nodup_cons.1 distinctRest
  have outFront : a ∉ before := fun member => apart a member a List.mem_cons_self rfl
  have across : ∀ b ∈ before, b ∉ after := fun b member inside =>
    apart b member b (List.mem_cons_of_mem _ inside) rfl
  have joined : Segment (LinkedList.setPrev (LinkedList.setNext mem before.getLast? after.head?)
      after.head? before.getLast?) none (before ++ after) none := by
    refine Segment.append.2 ⟨?_, ?_⟩
    · rw [Option.or_none]
      refine Segment.frame (front.setNext distinctFront) fun b member => setPrev_of_ne ?_
      exact head?_ne (across b member)
    · rw [Option.or_none]
      refine Segment.setPrev (Segment.frame back fun b member => setNext_of_ne ?_) distinctBack
      exact getLast?_ne fun inside => across b inside member
  refine joined.frame fun b member => update_of_ne ?_ _ _
  rintro rfl
  rcases List.mem_append.1 member with inside | inside
  · exact outFront inside
  · exact outBack inside

/-- Pointers do not change values. -/
theorem setNext_value {cell : Option Nat} :
    (setNext mem cell next a).map Cell.value = (mem a).map Cell.value := by
  by_cases here : cell = some a
  · subst here
    change (update mem a _ a).map _ = _
    rw [update_self, Option.map_map]
    rfl
  · rw [setNext_of_ne here]

/-- Pointers do not change values. -/
theorem setPrev_value {cell : Option Nat} :
    (setPrev mem cell prev a).map Cell.value = (mem a).map Cell.value := by
  by_cases here : cell = some a
  · subst here
    change (update mem a _ a).map _ = _
    rw [update_self, Option.map_map]
    rfl
  · rw [setPrev_of_ne here]

/-- Linking keeps what the other cells hold. -/
theorem link_value : (link mem new value prev next a).map Cell.value =
    if a = new then some value else (mem a).map Cell.value := by
  rw [link, setPrev_value, setNext_value]
  split_ifs with here
  · rw [here, update_self]
    rfl
  · rw [update_of_ne here]

/-- Unlinking keeps what the other cells hold. -/
theorem unlink_value {cell : Nat} : (unlink mem cell prev next a).map Cell.value =
    if a = cell then none else (mem a).map Cell.value := by
  unfold unlink
  split_ifs with here
  · rw [here, update_self]
    rfl
  · rw [update_of_ne here, setPrev_value, setNext_value]

/-- Following the pointers gives the cells in order. -/
theorem Segment.traverse (segment : Segment mem prev before none) :
    LinkedList.traverse mem before.length before.head? = before := by
  induction before generalizing prev with
  | nil => rfl
  | cons a rest ih =>
    obtain ⟨⟨value, cell⟩, inside⟩ := segment
    rw [Option.or_none] at cell
    simp only [List.length_cons, List.head?_cons, LinkedList.traverse, cell, ih inside]

/-- A search sees of the values only what its test does. -/
theorem findLoop_withValues {f : Nat → α → α} {test : α → Bool}
    (written : ∀ a, mem' a = (mem a).map fun cell => { cell with value := f a cell.value })
    (unseen : ∀ a value, test (f a value) = test value) :
    ∀ (count : Nat) (start : Option Nat),
      findLoop mem' test count start = findLoop mem test count start
  | 0, _ => rfl
  | _ + 1, none => rfl
  | count + 1, some a => by
    cases here : mem a with
    | none => simp only [findLoop, written a, here, Option.map_none]
    | some cell =>
      simp only [findLoop, written a, here, Option.map_some, unseen,
        findLoop_withValues written unseen count cell.next]

/-- The search visits the cells of a segment in order. -/
theorem Segment.findLoop {test : α → Bool} (segment : Segment mem prev before next) :
    LinkedList.findLoop mem test before.length before.head? =
      before.find? fun a => ((mem a).map Cell.value).any test := by
  induction before generalizing prev with
  | nil => rfl
  | cons a rest ih =>
    obtain ⟨⟨value, cell⟩, inside⟩ := segment
    have step : LinkedList.findLoop mem test (rest.length + 1) (some a) =
        if test value then some a
        else LinkedList.findLoop mem test rest.length (rest.head?.or next) := by
      simp only [LinkedList.findLoop, cell]
    have rest_ : LinkedList.findLoop mem test rest.length (rest.head?.or next) =
        LinkedList.findLoop mem test rest.length rest.head? := by
      cases rest with
      | nil | cons => rfl
    rw [List.length_cons, List.head?_cons, step, rest_, ih inside, List.find?_cons, cell]
    cases answer : test value <;> simp [answer]

end LinkedList
