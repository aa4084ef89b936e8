import SQLumDash.Hash.HashTableSpec

/-!
# The integer hash table is a finite map

`HashI64` compares its keys for equality, so at most one element has a given key. Every call is a
lookup or an update of a map, whatever memory it gets: a rehash that fails leaves the elements in
their old buckets.
-/

namespace SQLumDash.Hash

open LinkedList Function HashTable

section Map

variable {Key Data : Type} {hash : Key → Nat} {pH : HashTable Key Data} {map : Key → Option Data}
  {rekey : Key → Key} {a : Nat} {key : Key} {data : Data}

/-- The elements are the entries of the map, each key once. -/
structure HashTable.Represents (hash : Key → Nat) (pH : HashTable Key Data)
    (map : Key → Option Data) : Prop where
  lawful : ∃ order, pH.Lawful hash order
  stored : ∀ key data, map key = some data ↔ ∃ a, pH.elemAt a = some ⟨data, key⟩
  once : ∀ a b x y, pH.elemAt a = some x → pH.elemAt b = some y → x.key = y.key → a = b

/-- The keys in the order of the list. -/
def HashTable.keys (pH : HashTable Key Data) : List Key :=
  (pH.addresses.filterMap pH.elemAt).map HashElem.key

/-- A new table is the empty map. -/
theorem HashTable.init_represents : (init : HashTable Key Data).Represents hash fun _ => none where
  lawful := ⟨[], init_lawful⟩
  stored := fun _ _ => ⟨nofun, nofun⟩
  once := nofun

/-- The list has every key of the map once. -/
theorem HashTable.Represents.keys (holds : pH.Represents hash map) :
    pH.keys.Nodup ∧ ∀ key, key ∈ pH.keys ↔ (map key).isSome = true := by
  obtain ⟨order, lawful⟩ := holds.lawful
  have keyAt : ∀ a key, key ∈ (pH.elemAt a).map HashElem.key ↔
      ∃ data, pH.elemAt a = some ⟨data, key⟩ := by
    intro a key
    rw [Option.mem_def, Option.map_eq_some_iff]
    constructor
    · rintro ⟨⟨data, key'⟩, at_, rfl⟩
      exact ⟨data, at_⟩
    · rintro ⟨data, at_⟩
      exact ⟨_, at_, rfl⟩
  unfold HashTable.keys
  rw [lawful.addresses_eq, List.map_filterMap]
  constructor
  · refine lawful.linked.distinct.filterMap fun a b key inA inB => ?_
    obtain ⟨dataA, atA⟩ := (keyAt a key).1 inA
    obtain ⟨dataB, atB⟩ := (keyAt b key).1 inB
    exact holds.once a b _ _ atA atB rfl
  · intro key
    rw [List.mem_filterMap, Option.isSome_iff_exists]
    constructor
    · rintro ⟨a, -, inA⟩
      obtain ⟨data, at_⟩ := (keyAt a key).1 inA
      exact ⟨data, (holds.stored key data).2 ⟨a, at_⟩⟩
    · rintro ⟨data, entry⟩
      obtain ⟨a, at_⟩ := (holds.stored key data).1 entry
      exact ⟨a, lawful.elemAt_iff.1 (by rw [at_]; rfl), (keyAt a key).2 ⟨data, at_⟩⟩

/-- Only the data of one element change. -/
theorem replaceElement_mem (b : Nat) :
    (replaceElement pH a data rekey).mem b = (pH.mem b).map fun cell =>
      { cell with value := if b = a then ⟨data, rekey cell.value.key⟩ else cell.value } := by
  simp only [replaceElement, update_apply]
  split_ifs with here
  · rw [here]
  · rw [Option.map_id']

/-- A search goes by the keys. -/
theorem findElementWithHash_replace (same : Key → Key → Bool) (key : Key) :
    findElementWithHash hash same (replaceElement pH a data id) key =
      findElementWithHash hash same pH key := by
  have search : ∀ count start,
      findLoop (replaceElement pH a data id).mem (fun elem => same elem.key key) count start =
        findLoop pH.mem (fun elem => same elem.key key) count start := by
    refine findLoop_withValues
      (f := fun b elem => if b = a then ⟨data, elem.key⟩ else elem) replaceElement_mem ?_
    intro b elem
    by_cases here : b = a
    · rw [if_pos here]
    · rw [if_neg here]
  unfold findElementWithHash
  have buckets : (replaceElement pH a data id).ht = pH.ht := rfl
  rw [buckets]
  cases pH.ht with
  | none | some ht => exact search _ _

/-- The list and the buckets stay. -/
theorem replaceElement_lawful {order : List Nat} (lawful : pH.Lawful hash order)
    (at_ : pH.elemAt a = some ⟨data, key⟩) (data' : Data) (kept : rekey key = key) :
    (replaceElement pH a data' rekey).Lawful hash order ∧
      ∀ b, (replaceElement pH a data' rekey).elemAt b =
        if b = a then some ⟨data', key⟩ else pH.elemAt b := by
  obtain ⟨cell, here, value⟩ := Option.map_eq_some_iff.1 at_
  have elements : ∀ b, (replaceElement pH a data' rekey).elemAt b =
      if b = a then some ⟨data', key⟩ else pH.elemAt b := by
    intro b
    simp only [elemAt, replaceElement, update_apply]
    split_ifs with first
    · rw [here, Option.map_some, Option.map_some, value, kept]
    · rfl
  have buckets : ∀ b, (replaceElement pH a data' rekey).bucketAt hash b =
      pH.bucketAt hash b := by
    intro b
    unfold bucketAt
    rw [elements]
    split_ifs with first
    · rw [first, at_]
      rfl
    · rfl
  refine ⟨⟨⟨lawful.linked.first, ?_, lawful.linked.distinct⟩, ?_, lawful.counted, fun b used => ?_,
    lawful.fresh⟩, elements⟩
  · exact lawful.linked.segment.withValues
      (f := fun b elem => if b = a then ⟨data', rekey elem.key⟩ else elem) replaceElement_mem
  · have bucketed := lawful.bucketed
    unfold Bucketed at bucketed ⊢
    have sameBuckets : (replaceElement pH a data' rekey).bucketAt hash = pH.bucketAt hash :=
      funext buckets
    rw [sameBuckets]
    exact bucketed
  · apply lawful.elemAt_iff.1
    rw [← elemAt_isSome, elements] at used
    split_ifs at used with first
    · rw [first, at_]
      rfl
    · exact used

section

variable [BEq Key] [LawfulBEq Key]

/-- A search by equality ends at the element of the key. -/
theorem HashTable.Represents.search (holds : pH.Represents hash map) (key : Key) :
    (∃ a data, findElementWithHash hash (· == ·) pH key = some a ∧
        pH.elemAt a = some ⟨data, key⟩ ∧ map key = some data) ∨
      findElementWithHash hash (· == ·) pH key = none ∧ map key = none := by
  obtain ⟨order, lawful⟩ := holds.lawful
  have spec := findElementWithHash_spec (· == ·) lawful key
  cases search : findElementWithHash hash (· == ·) pH key with
  | some a =>
    rw [search] at spec
    obtain ⟨⟨data, key'⟩, at_, -, equal⟩ := spec
    obtain rfl : key' = key := eq_of_beq equal
    exact Or.inl ⟨a, data, rfl, at_, (holds.stored key' data).2 ⟨a, at_⟩⟩
  | none =>
    rw [search] at spec
    refine Or.inr ⟨rfl, ?_⟩
    cases entry : map key with
    | none => rfl
    | some data =>
      obtain ⟨a, at_⟩ := (holds.stored key data).1 entry
      have differ := spec a ⟨data, key⟩ at_ fun _ => rfl
      exact absurd differ (by simp)

/-- A lookup answers what the map has. -/
theorem HashTable.Represents.find (holds : pH.Represents hash map) (key : Key) :
    hashFind hash (· == ·) pH key = map key := by
  unfold hashFind
  rcases holds.search key with ⟨a, data, search, at_, entry⟩ | ⟨search, entry⟩
  · rw [search, entry]
    exact dataAt_eq at_
  · rw [search, entry]
    rfl

end

variable [DecidableEq Key]

section

variable (holds : pH.Represents hash map)

include holds

/-- One more entry. -/
theorem HashTable.Represents.add (alloc : Alloc) (data : Data) (absent : map key = none) :
    (addElement hash alloc pH key data).Represents hash (update map key (some data)) := by
  obtain ⟨order, lawful⟩ := holds.lawful
  obtain ⟨order', -, lawful', elements⟩ := addElement_spec alloc key data lawful
  have unused : ∀ a elem, pH.elemAt a = some elem → elem.key ≠ key := by
    rintro a ⟨data', key'⟩ at_ rfl
    have entry := (holds.stored key' data').2 ⟨a, at_⟩
    rw [absent] at entry
    cases entry
  have new : pH.elemAt pH.brk = none := Option.not_isSome_iff_eq_none.1 fun used =>
    Nat.lt_irrefl _ (lawful.fresh _ (lawful.elemAt_iff.1 used))
  refine ⟨⟨order', lawful'⟩, fun key' data' => ?_, fun a b x y atA atB same => ?_⟩
  · rw [update_apply]
    split_ifs with here
    · subst here
      constructor
      · rintro ⟨⟩
        exact ⟨pH.brk, by rw [elements, if_pos rfl]⟩
      · rintro ⟨a, at_⟩
        rw [elements] at at_
        split_ifs at at_ with first
        · cases at_
          rfl
        · exact absurd rfl (unused a _ at_)
    · rw [holds.stored]
      refine exists_congr fun a => ?_
      rw [elements]
      split_ifs with first
      · subst first
        rw [new]
        refine iff_of_false nofun fun same => here ?_
        cases same
        rfl
      · rfl
  · rw [elements] at atA atB
    split_ifs at atA atB with firstA firstB firstB
    · exact firstA.trans firstB.symm
    · cases atA
      exact absurd same.symm (unused b y atB)
    · cases atB
      exact absurd same (unused a x atA)
    · exact holds.once a b x y atA atB same

/-- One entry less. -/
theorem HashTable.Represents.remove (at_ : pH.elemAt a = some ⟨data, key⟩) :
    (removeElementGivenHash pH a (bucketOf hash pH key)).Represents hash (update map key none) := by
  obtain ⟨order, lawful⟩ := holds.lawful
  have member : a ∈ order := lawful.elemAt_iff.1 (by rw [at_]; rfl)
  have own : pH.ht.isSome = true → pH.bucketAt hash a = some (bucketOf hash pH key) := by
    intro sized
    rw [bucketAt, at_, bucketOf_sized sized]
    rfl
  obtain ⟨lawful', elements⟩ := removeElementGivenHash_spec lawful member own
  refine ⟨⟨_, lawful'⟩, fun key' data' => ?_, fun b c x y atB atC same => ?_⟩
  · rw [update_apply]
    split_ifs with here
    · subst here
      refine iff_of_false not_false ?_
      rintro ⟨b, atB⟩
      rw [elements] at atB
      split_ifs at atB with first
      exact first (holds.once b a _ _ atB at_ rfl)
    · rw [holds.stored]
      refine exists_congr fun b => ?_
      rw [elements]
      split_ifs with first
      · subst first
        rw [at_]
        refine iff_of_false (fun same => here ?_) not_false
        cases same
        rfl
      · rfl
  · rw [elements] at atB atC
    split_ifs at atB atC
    exact holds.once b c x y atB atC same

/-- Other data for a key that is there. -/
theorem HashTable.Represents.replace (at_ : pH.elemAt a = some ⟨data, key⟩) (data' : Data)
    (kept : rekey key = key) :
    (replaceElement pH a data' rekey).Represents hash (update map key (some data')) := by
  obtain ⟨order, lawful⟩ := holds.lawful
  obtain ⟨lawful', elements⟩ := replaceElement_lawful lawful at_ data' kept
  -- The keys are where they were.
  have sameKey : ∀ b x, (replaceElement pH a data' rekey).elemAt b = some x →
      ∃ y, pH.elemAt b = some y ∧ y.key = x.key := by
    intro b x atB
    rw [elements] at atB
    split_ifs at atB with first
    · cases atB
      exact ⟨⟨data, key⟩, first ▸ at_, rfl⟩
    · exact ⟨x, atB, rfl⟩
  refine ⟨⟨order, lawful'⟩, fun key' data'' => ?_, fun b c x y atB atC same => ?_⟩
  · rw [update_apply]
    split_ifs with here
    · subst here
      constructor
      · rintro ⟨⟩
        exact ⟨a, by rw [elements, if_pos rfl]⟩
      · rintro ⟨b, atB⟩
        obtain ⟨old, atOld, same⟩ := sameKey b _ atB
        obtain rfl := holds.once b a _ _ atOld at_ same
        rw [elements, if_pos rfl] at atB
        cases atB
        rfl
    · rw [holds.stored]
      refine exists_congr fun b => ?_
      rw [elements]
      split_ifs with first
      · rw [first, at_]
        constructor
        · rintro ⟨⟩
          exact absurd rfl here
        · rintro ⟨⟩
          exact absurd rfl here
      · rfl
  · obtain ⟨x', atX, sameX⟩ := sameKey b x atB
    obtain ⟨y', atY, sameY⟩ := sameKey c y atC
    exact holds.once b c x' y' atX atY (sameX.trans (same.trans sameY.symm))

/-- What an insertion into a map returns, and the map after it. A new key needs an element. -/
def mapInsert (elem : Bool) (map : Key → Option Data) (key : Key) :
    Option Data → Option Data × (Key → Option Data)
  | none => (map key, update map key none)
  | some data =>
    if (map key).isSome ∨ elem then (map key, update map key (some data))
    else (some data, map)

/-- An insertion answers as the one into the map does. -/
theorem HashTable.Represents.insert [BEq Key] [LawfulBEq Key] (elem ht : Bool) (key : Key)
    (data : Option Data) :
    (hashInsert hash (· == ·) ⟨elem, true, ht⟩ pH key data).1 = (mapInsert elem map key data).1 ∧
      (hashInsert hash (· == ·) ⟨elem, true, ht⟩ pH key data).2.Represents hash
        (mapInsert elem map key data).2 := by
  unfold hashInsert
  rcases holds.search key with ⟨a, old, search, at_, entry⟩ | ⟨search, entry⟩
  · rw [search]
    cases data with
    | none => exact ⟨(dataAt_eq at_).trans entry.symm, holds.remove at_⟩
    | some data =>
      simp only [mapInsert, entry, Option.isSome_some, true_or, if_true]
      exact ⟨dataAt_eq at_, holds.replace at_ data rfl⟩
  · rw [search]
    cases data with
    | none =>
      have unchanged : update map key none = map := by
        rw [← entry, update_eq_self]
      simp only [mapInsert, unchanged]
      exact ⟨entry.symm, holds⟩
    | some data =>
      simp only [mapInsert, entry, Option.isSome_none, Bool.false_eq_true, false_or, and_true]
      split_ifs with memory
      · exact ⟨rfl, holds.add _ data entry⟩
      · exact ⟨rfl, holds⟩

end

end Map

section HashI64

variable {Data : Type}

/-- `HashI64`. The keys are root pages, which are not negative. -/
abbrev HashI64 (Data : Type) := HashTable Nat Data

/-- `sqlite3HashI64Find` -/
def sqlite3HashI64Find (pH : HashI64 Data) (iKey : Nat) : Option Data :=
  hashFind id (· == ·) pH iKey

/-- `sqlite3HashI64Insert`, with the memory for the element and for new buckets. -/
def sqlite3HashI64Insert (elem ht : Bool) (pH : HashI64 Data) (iKey : Nat) (data : Option Data) :
    Option Data × HashI64 Data :=
  hashInsert id (· == ·) ⟨elem, true, ht⟩ pH iKey data

/-- The calls on a table. -/
inductive HashCall (Data : Type) where
  | find (iKey : Nat)
  /-- Without data the key is removed. -/
  | insert (elem ht : Bool) (iKey : Nat) (data : Option Data)

/-- What a call returns, and the table after it. -/
def HashI64.call (pH : HashI64 Data) : HashCall Data → Option Data × HashI64 Data
  | .find iKey => (sqlite3HashI64Find pH iKey, pH)
  | .insert elem ht iKey data => sqlite3HashI64Insert elem ht pH iKey data

/-- What a call on a map returns, and the map after it. -/
def HashCall.onMap (map : Nat → Option Data) : HashCall Data → Option Data × (Nat → Option Data)
  | .find iKey => (map iKey, map)
  | .insert elem _ iKey data => mapInsert elem map iKey data

/-- What calls return, and the table after them. -/
def runCalls {State : Type} (call : State → HashCall Data → Option Data × State) :
    State → List (HashCall Data) → List (Option Data) × State
  | s, [] => ([], s)
  | s, first :: rest =>
    let answers := runCalls call (call s first).2 rest
    ((call s first).1 :: answers.1, answers.2)

variable {pH : HashI64 Data} {map : Nat → Option Data}

/-- A call answers as the map does. -/
theorem HashTable.Represents.call (holds : pH.Represents id map) (call : HashCall Data) :
    (HashI64.call pH call).1 = (call.onMap map).1 ∧
      (HashI64.call pH call).2.Represents id (call.onMap map).2 := by
  cases call with
  | find iKey => exact ⟨holds.find iKey, holds⟩
  | insert elem ht iKey data => exact holds.insert elem ht iKey data

/-- A run of calls answers as the map does. -/
theorem HashTable.Represents.runCalls (holds : pH.Represents id map)
    (calls : List (HashCall Data)) :
    (Hash.runCalls HashI64.call pH calls).1 = (Hash.runCalls HashCall.onMap map calls).1 ∧
      (Hash.runCalls HashI64.call pH calls).2.Represents id
        (Hash.runCalls HashCall.onMap map calls).2 := by
  induction calls generalizing pH map with
  | nil => exact ⟨rfl, holds⟩
  | cons first rest ih =>
    obtain ⟨answer, after⟩ := holds.call first
    obtain ⟨answers, final⟩ := ih after
    exact ⟨congrArg₂ List.cons answer answers, final⟩

/-- Any calls on a new table, with any failures of memory, answer as the calls on a map do. The
table they leave has the keys of that map in its list, each once. The list ends with the last of
them, and they are as many as the table counts. An insertion of another key that gets no element
returns its data and changes nothing. -/
theorem hashI64_is_map (calls : List (HashCall Data)) :
    let run := runCalls HashI64.call init calls
    let map := runCalls HashCall.onMap (fun _ => none) calls
    run.1 = map.1 ∧
      (∀ iKey, sqlite3HashI64Find run.2 iKey = map.2 iKey) ∧
      run.2.Lawful id run.2.addresses ∧
      run.2.keys.Nodup ∧ (∀ iKey, iKey ∈ run.2.keys ↔ (map.2 iKey).isSome = true) ∧
      ∀ ht iKey data, map.2 iKey = none →
        sqlite3HashI64Insert false ht run.2 iKey (some data) = (some data, run.2) := by
  intro run map
  obtain ⟨answers, holds⟩ := init_represents.runCalls calls
  obtain ⟨order, lawful⟩ := holds.lawful
  have listed : run.2.Lawful id run.2.addresses := lawful.addresses_eq ▸ lawful
  refine ⟨answers, holds.find, listed, holds.keys.1, holds.keys.2, fun ht iKey data absent => ?_⟩
  rcases holds.search iKey with ⟨a, old, -, -, entry⟩ | ⟨search, -⟩
  · rw [entry] at absent
    cases absent
  · unfold sqlite3HashI64Insert hashInsert
    rw [search]
    rfl

/-- `transRootPagesFinish`, at most so many rounds: what is freed, and the table left. -/
def transRootPagesFinish : Nat → HashI64 Data → Option (List (HashElem Nat Data) × HashI64 Data)
  | 0, _ => none
  | rounds + 1, pH =>
    match pH.first.bind pH.elemAt with
    | none => some ([], pH.clear)
    | some elem =>
      (transRootPagesFinish rounds (sqlite3HashI64Insert true true pH elem.key none).2).map
        fun later => (elem :: later.1, later.2)

/-- Every element is freed once. -/
theorem HashTable.Represents.finish {order : List Nat} (holds : pH.Represents id map)
    (lawful : pH.Lawful id order) :
    ∃ freed left, transRootPagesFinish (order.length + 1) pH = some (freed, .clear left) ∧
      (freed.map HashElem.key).Nodup ∧ ∀ elem, elem ∈ freed ↔ map elem.key = some elem.data := by
  induction order generalizing pH map with
  | nil =>
    refine ⟨[], pH, ?_, List.nodup_nil, fun elem => ?_⟩
    · simp [transRootPagesFinish, lawful.linked.first]
    · have absent a := lawful.elemAt_iff (a := a)
      simp_all [holds.stored]
  | cons a rest ih =>
    obtain ⟨⟨data, key⟩, at_⟩ := Option.isSome_iff_exists.1 (lawful.elemAt_iff.2 List.mem_cons_self)
    have entry := (holds.stored key data).2 ⟨a, at_⟩
    obtain ⟨b, _, search, atB, _⟩ | ⟨_, absent⟩ := holds.search key
    · obtain rfl := holds.once _ _ _ _ at_ atB rfl
      have after := (removeElement_entries lawful at_ fun sized =>
        (bucketOf_sized sized key).symm).1
      rw [List.erase_cons_head] at after
      obtain ⟨freed, left, ran, distinct, members⟩ := ih (holds.remove at_) after
      refine ⟨⟨data, key⟩ :: freed, left, ?_, ?_, fun elem => ?_⟩
      · simp [transRootPagesFinish, lawful.linked.first, at_, sqlite3HashI64Insert, hashInsert,
          search, ran]
      · grind [update_self]
      · by_cases same : elem.key = key <;> cases elem <;> simp_all [eq_comm]
    · cases entry.symm.trans absent

/-- After any calls, with any failures of memory, `transRootPagesFinish` ends, frees the data of
every key once and leaves an empty table. -/
theorem transRootPagesFinish_frees (calls : List (HashCall Data)) :
    let pH := (runCalls HashI64.call init calls).2
    ∃ freed left, transRootPagesFinish (pH.count + 1) pH = some (freed, .clear left) ∧
      (freed.map HashElem.key).Nodup ∧ ∀ elem, elem ∈ freed ↔
        (runCalls HashCall.onMap (fun _ => none) calls).2 elem.key = some elem.data := by
  intro pH
  obtain ⟨-, holds⟩ := init_represents.runCalls calls
  obtain ⟨order, lawful⟩ := holds.lawful
  exact lawful.counted ▸ holds.finish lawful

end HashI64

end SQLumDash.Hash
