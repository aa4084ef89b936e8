import Mathlib.Data.Multiset.Filter
import SQLumDash.Hash.HashTable

/-!
# What the hash tables keep

The elements form a doubly linked list of groups, one for each bucket in use, and the bucket points
to its group and counts it. A search visits the group of its bucket, or all elements.
-/

namespace SQLumDash.Hash

open LinkedList Function HashTable
open List (nodup_nil map_append map_cons nodup_middle nodup_cons mem_map mem_append
  mem_append_left mem_append_right mem_cons mem_cons_of_mem forall_mem_cons cons_ne_nil mem_flatMap
  append_of_mem nodup_append)

variable {Key Data : Type} {hash : Key → Nat} {same : Key → Key → Bool}
  {pH : HashTable Key Data} {order before after : List Nat} {a new h : Nat}
  {elem : HashElem Key Data}

/-- The element at an address. -/
def HashTable.elemAt (pH : HashTable Key Data) (a : Nat) : Option (HashElem Key Data) :=
  (pH.mem a).map Cell.value

/-- The elements of a table are linked in this order. -/
structure HashTable.Linked (pH : HashTable Key Data) (order : List Nat) : Prop where
  first : pH.first = order.head?
  segment : Segment pH.mem none order none
  distinct : order.Nodup

/-- The groups of a list, each with its bucket. -/
structure Groups (bucket : Nat → Option Nat) (ht : Nat → Bucket) (order : List Nat)
    (groups : List (Nat × List Nat)) : Prop where
  joined : order = groups.flatMap Prod.snd
  distinct : (groups.map Prod.fst).Nodup
  used : ∀ group ∈ groups, group.2 ≠ []
  inside : ∀ group ∈ groups, ∀ a ∈ group.2, bucket a = some group.1
  found : ∀ group ∈ groups, ht group.1 = ⟨group.2.length, group.2.head?⟩
  unused : ∀ h, h ∉ groups.map Prod.fst → (ht h).count = 0

/-- The bucket of the element at an address. -/
def HashTable.bucketAt (hash : Key → Nat) (pH : HashTable Key Data) (a : Nat) : Option Nat :=
  (pH.elemAt a).map fun elem => hash elem.key % pH.htsize

/-- The buckets of a table fit its list. -/
def HashTable.Bucketed (hash : Key → Nat) (pH : HashTable Key Data) (order : List Nat) : Prop :=
  match pH.ht with
  | none => pH.htsize = 0
  | some ht => 0 < pH.htsize ∧ ∃ groups, Groups (pH.bucketAt hash) ht order groups

/-- The invariant of a hash table. -/
structure HashTable.Lawful (hash : Key → Nat) (pH : HashTable Key Data) (order : List Nat) :
    Prop where
  linked : pH.Linked order
  bucketed : pH.Bucketed hash order
  counted : pH.count = order.length
  /-- There are no other elements. -/
  complete : ∀ a, (pH.mem a).isSome = true → a ∈ order
  /-- New elements get new addresses. -/
  fresh : ∀ a ∈ order, a < pH.brk

/-- A new table is lawful. -/
theorem HashTable.init_lawful : (init : HashTable Key Data).Lawful hash [] where
  linked := ⟨rfl, trivial, nodup_nil⟩
  bucketed := rfl
  counted := rfl
  complete := fun _ used => nomatch used
  fresh := fun _ member => nomatch member

/-- Elements are where there is memory. -/
theorem HashTable.elemAt_isSome : (pH.elemAt a).isSome = (pH.mem a).isSome := Option.isSome_map

/-- The elements of a table are those of its list. -/
theorem HashTable.Lawful.elemAt_iff (lawful : pH.Lawful hash order) :
    (pH.elemAt a).isSome = true ↔ a ∈ order := by
  rw [elemAt_isSome]
  exact ⟨lawful.complete a, lawful.linked.segment.mem_some⟩

section Groups

variable {bucket bucket' : Nat → Option Nat} {ht : Nat → Bucket}
  {groups front back : List (Nat × List Nat)} {members members' : List Nat}

/-- The other groups have other buckets. -/
theorem Groups.apart (fit : Groups bucket ht order (front ++ (h, members) :: back)) :
    ∀ group ∈ front ++ back, group.1 ≠ h := by
  have distinct := fit.distinct
  rw [map_append, map_cons, nodup_middle, nodup_cons, ← map_append] at distinct
  intro group member same
  exact distinct.1 (mem_map.2 ⟨group, member, same⟩)

/-- What holds of the others and of the middle. -/
theorem mem_middle {P : Nat × List Nat → Prop} (here : P (h, members))
    (others : ∀ group ∈ front ++ back, P group) :
    ∀ group ∈ front ++ (h, members) :: back, P group := by
  intro group member
  rcases mem_append.1 member with inFront | inBack
  · exact others group (mem_append_left _ inFront)
  · rcases mem_cons.1 inBack with rfl | inside
    · exact here
    · exact others group (mem_append_right _ inside)

/-- The other groups are groups. -/
theorem Groups.others (group : Nat × List Nat) (member : group ∈ front ++ back) :
    group ∈ front ++ (h, members) :: back := by
  rcases mem_append.1 member with inFront | inBack
  · exact mem_append_left _ inFront
  · exact mem_append_right _ (mem_cons_of_mem _ inBack)

/-- Another group in the place of one. -/
theorem Groups.replace (fit : Groups bucket ht order (front ++ (h, members) :: back))
    (some_ : members' ≠ []) (inside : ∀ a ∈ members', bucket' a = some h)
    (agree : ∀ group ∈ front ++ back, ∀ a ∈ group.2, bucket' a = bucket a) :
    Groups bucket' (update ht h ⟨members'.length, members'.head?⟩)
      (front.flatMap Prod.snd ++ (members' ++ back.flatMap Prod.snd))
      (front ++ (h, members') :: back) where
  joined := by simp
  distinct := by
    have distinct := fit.distinct
    simpa using distinct
  used := mem_middle some_ fun group member => fit.used group (Groups.others group member)
  inside := mem_middle inside fun group member a here => by
    rw [agree group member a here]
    exact fit.inside group (Groups.others group member) a here
  found := mem_middle (update_self ..) fun group member => by
    rw [update_of_ne (fit.apart group member)]
    exact fit.found group (Groups.others group member)
  unused := by
    intro other absent
    have apart : other ≠ h := by
      rintro rfl
      exact absent (by simp)
    rw [update_of_ne apart]
    exact fit.unused other (by simpa using absent)

/-- A group for a bucket that had none. -/
theorem Groups.add (fit : Groups bucket ht order groups) (absent : h ∉ groups.map Prod.fst)
    (here : bucket' new = some h) (agree : ∀ a ∈ order, bucket' a = bucket a) :
    Groups bucket' (update ht h ⟨(ht h).count + 1, some new⟩) (new :: order)
      ((h, [new]) :: groups) where
  joined := by
    rw [fit.joined]
    rfl
  distinct := nodup_cons.2 ⟨absent, fit.distinct⟩
  used := forall_mem_cons.2 ⟨cons_ne_nil _ _, fit.used⟩
  inside := by
    refine forall_mem_cons.2 ⟨fun a member => ?_, fun group member a inside => ?_⟩
    · rw [List.mem_singleton.1 member]
      exact here
    · rw [agree a (fit.joined ▸ mem_flatMap.2 ⟨group, member, inside⟩)]
      exact fit.inside group member a inside
  found := by
    refine forall_mem_cons.2 ⟨?_, fun group member => ?_⟩
    · rw [update_self, fit.unused h absent]
      rfl
    · have apart : group.1 ≠ h := fun same => absent (mem_map.2 ⟨group, member, same⟩)
      rw [update_of_ne apart]
      exact fit.found group member
  unused := by
    intro other missing
    rw [map_cons, mem_cons, not_or] at missing
    rw [update_of_ne missing.1]
    exact fit.unused other missing.2

/-- Without the last element of a bucket. -/
theorem Groups.drop {chain : Option Nat}
    (fit : Groups bucket ht order (front ++ (h, members) :: back))
    (agree : ∀ group ∈ front ++ back, ∀ a ∈ group.2, bucket' a = bucket a) :
    Groups bucket' (update ht h ⟨0, chain⟩)
      (front.flatMap Prod.snd ++ back.flatMap Prod.snd) (front ++ back) where
  joined := by simp
  distinct := by
    have distinct := fit.distinct
    rw [map_append, map_cons, nodup_middle, nodup_cons, ← map_append] at distinct
    exact distinct.2
  used := fun group member => fit.used group (Groups.others group member)
  inside := fun group member a here => by
    rw [agree group member a here]
    exact fit.inside group (Groups.others group member) a here
  found := fun group member => by
    rw [update_of_ne (fit.apart group member)]
    exact fit.found group (Groups.others group member)
  unused := by
    intro other absent
    by_cases same : other = h
    · rw [same, update_self]
    · rw [update_of_ne same]
      apply fit.unused other
      rw [map_append, map_cons]
      rw [map_append] at absent
      simp only [mem_append, mem_cons, not_or] at absent ⊢
      exact ⟨absent.1, same, absent.2⟩

end Groups

section Insert

/-- The table with a new element at a place of the list. -/
def HashTable.place (pH : HashTable Key Data) (ht : Option (Nat → Bucket)) (new : Nat)
    (elem : HashElem Key Data) (before after : List Nat) : HashTable Key Data :=
  { pH with
    ht := ht
    mem := link pH.mem new elem before.getLast? after.head?
    first := if before.getLast?.isSome then pH.first else some new }

/-- A new element changes no other. -/
theorem HashTable.place_elemAt {ht : Option (Nat → Bucket)} :
    (pH.place ht new elem before after).elemAt a = if a = new then some elem else pH.elemAt a :=
  link_value

/-- The cells outside the list stay as they are. -/
theorem HashTable.place_frame {ht : Option (Nat → Bucket)} (absent : a ∉ before ++ after)
    (other : a ≠ new) : (pH.place ht new elem before after).mem a = pH.mem a := by
  change link pH.mem new elem before.getLast? after.head? a = pH.mem a
  unfold link
  rw [setPrev_of_ne (head?_ne fun member => absent (mem_append_right _ member)),
    setNext_of_ne (getLast?_ne fun member => absent (mem_append_left _ member)),
    update_of_ne other]

/-- Where a new element goes; the buckets fit again. -/
theorem insertElement_spec (elem : HashElem Key Data) (linked : pH.Linked order)
    (bucketed : pH.Bucketed hash order) (fresh : new ∉ order) :
    ∃ ht before after, order = before ++ after ∧ ht.isSome = pH.ht.isSome ∧
      insertElement pH (pH.ht.map fun _ => hash elem.key % pH.htsize) new elem =
        pH.place ht new elem before after ∧
      (pH.place ht new elem before after).Bucketed hash (before ++ new :: after) := by
  cases buckets : pH.ht with
  | none =>
    refine ⟨none, [], order, rfl, rfl, ?_, ?_⟩
    · simp [insertElement, buckets, place, linked.first]
    · unfold Bucketed at bucketed
      rw [buckets] at bucketed
      exact bucketed
  | some ht =>
    unfold Bucketed at bucketed
    rw [buckets] at bucketed
    obtain ⟨positive, groups, fit⟩ := bucketed
    let h := hash elem.key % pH.htsize
    let ht' := update ht h ⟨(ht h).count + 1, some new⟩
    have agree : ∀ before after : List Nat, ∀ a ∈ order,
        (pH.place (some ht') new elem before after).bucketAt hash a = pH.bucketAt hash a := by
      intro before after a member
      have other : a ≠ new := fun same => fresh (same ▸ member)
      unfold bucketAt
      rw [place_elemAt, if_neg other]
      rfl
    have here : ∀ before after : List Nat,
        (pH.place (some ht') new elem before after).bucketAt hash new = some h := by
      intro before after
      unfold bucketAt
      rw [place_elemAt, if_pos rfl]
      rfl
    by_cases used : h ∈ groups.map Prod.fst
    · -- The bucket has a group: the element goes in front of it.
      obtain ⟨⟨key, members⟩, member, same⟩ := mem_map.1 used
      obtain rfl : key = h := same
      obtain ⟨front, back, rfl⟩ := append_of_mem member
      have some_ := fit.used _ member
      have found := fit.found _ member
      obtain ⟨head, rest, rfl⟩ := List.exists_cons_of_ne_nil some_
      have split : order = front.flatMap Prod.snd ++ (head :: rest ++ back.flatMap Prod.snd) := by
        rw [fit.joined]
        simp
      refine ⟨some ht', front.flatMap Prod.snd, head :: rest ++ back.flatMap Prod.snd, split, rfl,
        ?_, positive, front ++ (h, new :: head :: rest) :: back, ?_⟩
      · have segment := linked.segment
        rw [split, List.cons_append] at segment
        obtain ⟨value, cell⟩ := segment.cell
        have prev : (pH.mem head).bind Cell.prev = (front.flatMap Prod.snd).getLast? := by
          rw [cell]
          rfl
        have used : (ht h).count ≠ 0 := by simp [found]
        have chain : (ht h).chain = some head := by rw [found]; rfl
        rw [Option.map_some, insertElement_before buckets used chain, prev]
        rfl
      · have sized : ht' = update ht h
            ⟨(new :: head :: rest).length, (new :: head :: rest).head?⟩ := by
          simp only [ht', found]
          rfl
        have inOrder : ∀ group ∈ front ++ (h, head :: rest) :: back, ∀ a ∈ group.2, a ∈ order :=
          fun group inside a at_ => fit.joined ▸ mem_flatMap.2 ⟨group, inside, at_⟩
        rw [sized] at agree here ⊢
        refine fit.replace (cons_ne_nil _ _) (forall_mem_cons.2 ⟨here _ _, ?_⟩) ?_
        · intro a inside
          rw [agree _ _ a (inOrder _ member a inside)]
          exact fit.inside _ member a inside
        · intro group inside a at_
          exact agree _ _ a (inOrder _ (Groups.others group inside) a at_)
    · -- The bucket is empty: the element goes in front of the list.
      refine ⟨some ht', [], order, rfl, rfl, ?_, positive, (h, [new]) :: groups,
        fit.add used (here [] order) (agree [] order)⟩
      have empty : (ht h).count = 0 := fit.unused h used
      rw [Option.map_some, insertElement_first buckets empty, linked.first]
      rfl

/-- The elements of a table hold the same in both. -/
structure HashTable.SameElements (pH pH' : HashTable Key Data) : Prop where
  elemAt : ∀ a, pH'.elemAt a = pH.elemAt a
  count : pH'.count = pH.count
  brk : pH'.brk = pH.brk

/-- A new element at any place of the list. -/
theorem HashTable.Linked.place (ht : Option (Nat → Bucket)) (elem : HashElem Key Data)
    (linked : pH.Linked (before ++ after)) (fresh : new ∉ before ++ after) :
    (pH.place ht new elem before after).Linked (before ++ new :: after) := by
  refine ⟨?_, linked.segment.link linked.distinct fresh, ?_⟩
  · unfold HashTable.place
    cases before with
    | nil => rfl
    | cons first rest =>
      have some_ : ((first :: rest).getLast?).isSome = true := by simp
      rw [if_pos some_, linked.first]
      rfl
  · rw [nodup_middle, nodup_cons]
    exact ⟨fresh, linked.distinct⟩

/-- The loop moves the rest of the old list. -/
theorem rehashLoop_spec {rest : List Nat} :
    ∀ {fuel : Nat} {pH : HashTable Key Data} {order : List Nat} {prev : Option Nat},
      pH.Linked order → pH.Bucketed hash order → pH.ht.isSome = true →
      Segment pH.mem prev rest none → (order ++ rest).Nodup → rest.length ≤ fuel →
      ∃ order', order'.Perm (order ++ rest) ∧ (rehashLoop hash fuel rest.head? pH).Linked order' ∧
        (rehashLoop hash fuel rest.head? pH).Bucketed hash order' ∧
        pH.SameElements (rehashLoop hash fuel rest.head? pH) := by
  induction rest with
  | nil =>
    intro fuel pH order prev linked bucketed _ _ _ _
    have done : rehashLoop hash fuel ([] : List Nat).head? pH = pH := by
      cases fuel <;> rfl
    rw [done]
    exact ⟨order, by simp, linked, bucketed, fun _ => rfl, rfl, rfl⟩
  | cons a rest ih =>
    intro fuel pH order prev linked bucketed sized segment distinct enough
    obtain ⟨⟨value, cell⟩, segment⟩ := segment
    rw [Option.or_none] at cell
    obtain ⟨fuel, rfl⟩ : ∃ left, fuel = left + 1 := ⟨fuel - 1, by simp at enough; omega⟩
    have outside : a ∉ order := fun member =>
      (nodup_append.1 distinct).2.2 a member a List.mem_cons_self rfl
    have later : a ∉ rest := (nodup_cons.1 (nodup_append.1 distinct).2.1).1
    obtain ⟨ht, before, after, split, kind, placed, fits⟩ :=
      insertElement_spec value linked bucketed outside
    subst split
    have entry : (pH.ht.map fun _ => hash value.key % pH.htsize) =
        some (hash value.key % pH.htsize) := by
      obtain ⟨ht, buckets⟩ := Option.isSome_iff_exists.1 sized
      rw [buckets]
      rfl
    rw [entry] at placed
    have step : rehashLoop hash (fuel + 1) (a :: rest).head? pH =
        rehashLoop hash fuel rest.head? (pH.place ht a value before after) := by
      simp only [List.head?_cons, rehashLoop, cell, placed]
    have moved : (before ++ a :: after ++ rest).Perm (before ++ after ++ a :: rest) := by
      simp only [List.append_assoc, List.cons_append]
      exact List.Perm.append_left before (List.perm_middle.symm)
    have distinct' : (before ++ a :: after ++ rest).Nodup := moved.nodup_iff.2 distinct
    have segment' : Segment (pH.place ht a value before after).mem (some a) rest none := by
      refine segment.frame fun b member => place_frame (fun inside => ?_) fun same => ?_
      · exact (nodup_append.1 distinct).2.2 b inside b (mem_cons_of_mem _ member) rfl
      · exact later (same ▸ member)
    obtain ⟨order', perm, linked', bucketed', kept⟩ := ih (linked.place ht value outside) fits
      (kind.trans sized) segment' distinct' (by simp at enough; omega)
    rw [step]
    refine ⟨order', perm.trans moved, linked', bucketed', fun b => ?_, kept.count, kept.brk⟩
    rw [kept.elemAt b, place_elemAt]
    split_ifs with here
    · rw [here, elemAt, cell]
      rfl
    · rfl

/-- A rehash keeps the elements, in some order. -/
theorem rehash_spec {alloc : Bool} {size : Nat} (linked : pH.Linked order)
    (bucketed : pH.Bucketed hash order) (enough : order.length ≤ pH.count) (positive : 0 < size) :
    ∃ order', order'.Perm order ∧ (rehash hash alloc pH size).2.Linked order' ∧
      (rehash hash alloc pH size).2.Bucketed hash order' ∧
      pH.SameElements (rehash hash alloc pH size).2 := by
  have unchanged : ∃ order', order'.Perm order ∧ pH.Linked order' ∧ pH.Bucketed hash order' ∧
      pH.SameElements pH := ⟨order, .refl _, linked, bucketed, fun _ => rfl, rfl, rfl⟩
  unfold rehash
  dsimp only
  split_ifs
  · exact unchanged
  · let empty : HashTable Key Data :=
      { pH with htsize := min size maxBuckets, ht := some fun _ => ⟨0, none⟩, first := none }
    have linkedEmpty : empty.Linked [] := ⟨rfl, trivial, nodup_nil⟩
    have bucketedEmpty : empty.Bucketed hash [] := by
      refine ⟨Nat.lt_min.2 ⟨positive, by decide⟩, [], ⟨rfl, nodup_nil, ?_, ?_, ?_, fun _ _ => rfl⟩⟩
      all_goals exact fun _ member => nomatch member
    have moved := rehashLoop_spec linkedEmpty bucketedEmpty rfl linked.segment linked.distinct enough
    rw [← linked.first, List.nil_append] at moved
    obtain ⟨order', perm, linked', bucketed', kept⟩ := moved
    exact ⟨order', perm, linked', bucketed', kept.elemAt, kept.count, kept.brk⟩
  · exact unchanged

/-- The table with one more element counted. -/
def HashTable.counting (pH : HashTable Key Data) : HashTable Key Data :=
  { pH with count := pH.count + 1, brk := pH.brk + 1 }

/-- The table that a new element goes into. -/
def HashTable.sized (hash : Key → Nat) (alloc : Alloc) (pH : HashTable Key Data) :
    HashTable Key Data :=
  if pH.counting.count ≥ 10 ∧ pH.counting.count > 2 * pH.counting.htsize then
    (rehash hash alloc.ht pH.counting (pH.counting.count * 2)).2
  else pH.counting

/-- More buckets hold the same elements. -/
theorem HashTable.Lawful.sized (lawful : pH.Lawful hash order) (alloc : Alloc) :
    ∃ order', order'.Perm order ∧ (pH.sized hash alloc).Linked order' ∧
      (pH.sized hash alloc).Bucketed hash order' ∧
      pH.counting.SameElements (pH.sized hash alloc) := by
  have linked : pH.counting.Linked order := ⟨lawful.linked.first, lawful.linked.segment,
    lawful.linked.distinct⟩
  have bucketed : pH.counting.Bucketed hash order := lawful.bucketed
  unfold HashTable.sized
  split_ifs with outgrown
  · have enough : order.length ≤ pH.counting.count := by
      have counted := lawful.counted
      simp only [counting]
      omega
    exact rehash_spec linked bucketed enough (by omega)
  · exact ⟨order, .refl _, linked, bucketed, fun _ => rfl, rfl, rfl⟩

/-- What an insertion of a new key does to the table. -/
theorem addElement_spec (alloc : Alloc) (key : Key) (data : Data) (lawful : pH.Lawful hash order) :
    ∃ order', order'.Perm (pH.brk :: order) ∧
      (addElement hash alloc pH key data).Lawful hash order' ∧
      ∀ a, (addElement hash alloc pH key data).elemAt a =
        if a = pH.brk then some ⟨data, key⟩ else pH.elemAt a := by
  let sized := pH.sized hash alloc
  obtain ⟨order', perm, linked', bucketed', kept⟩ := lawful.sized alloc
  have fresh : pH.brk ∉ order' := fun member =>
    absurd (lawful.fresh _ (perm.mem_iff.1 member)) (Nat.lt_irrefl _)
  obtain ⟨ht, before, after, split, -, placed, fits⟩ :=
    insertElement_spec ⟨data, key⟩ linked' bucketed' fresh
  subst split
  have result : addElement hash alloc pH key data = sized.place ht pH.brk ⟨data, key⟩ before after := by
    have entry : (sized.ht.map fun _ => bucketOf hash sized key) =
        sized.ht.map fun _ => hash key % sized.htsize := by
      unfold bucketOf
      cases sized.ht <;> rfl
    rw [← placed, ← entry]
    rfl
  have members : (before ++ pH.brk :: after).Perm (pH.brk :: order) :=
    List.perm_middle.trans (perm.cons _)
  have elements : ∀ a, (sized.place ht pH.brk ⟨data, key⟩ before after).elemAt a =
      if a = pH.brk then some ⟨data, key⟩ else pH.elemAt a := by
    intro a
    rw [place_elemAt, kept.elemAt a]
    rfl
  rw [result]
  refine ⟨_, members, ⟨linked'.place ht _ fresh, fits, ?_, fun a used => ?_, fun a member => ?_⟩,
    elements⟩
  · have count : sized.count = pH.count + 1 := kept.count
    change sized.count = _
    rw [count, members.length_eq, lawful.counted, List.length_cons]
  · rw [members.mem_iff, mem_cons]
    by_cases new : a = pH.brk
    · exact Or.inl new
    · rw [← elemAt_isSome, elements a, if_neg new] at used
      exact Or.inr (lawful.elemAt_iff.1 used)
  · have brk : sized.brk = pH.brk + 1 := kept.brk
    change a < sized.brk
    rw [brk]
    rcases mem_cons.1 (members.mem_iff.1 member) with rfl | old
    · exact Nat.lt_succ_self _
    · exact Nat.lt_succ_of_lt (lawful.fresh a old)

end Insert

section Remove

/-- The list without its middle. -/
theorem erase_middle {before after : List Nat} (distinct : (before ++ a :: after).Nodup) :
    (before ++ a :: after).erase a = before ++ after := by
  have absent : a ∉ before := fun member =>
    (nodup_append.1 distinct).2.2 a member a List.mem_cons_self rfl
  rw [List.erase_append_right _ absent, List.erase_cons_head]

/-- The table without the middle element. -/
def HashTable.without (pH : HashTable Key Data) (h a : Nat) (before after : List Nat) :
    HashTable Key Data :=
  { pH with
    first := if before.getLast?.isSome then pH.first else after.head?
    ht := pH.ht.map fun ht => update ht h
      ⟨(ht h).count - 1, if (ht h).chain = some a then after.head? else (ht h).chain⟩
    mem := unlink pH.mem a before.getLast? after.head?
    count := pH.count - 1 }

/-- The bucket counts one less. -/
theorem HashTable.without_ht {ht : Nat → Bucket} (buckets : pH.ht = some ht) :
    (pH.without h a before after).ht = some (update ht h
      ⟨(ht h).count - 1, if (ht h).chain = some a then after.head? else (ht h).chain⟩) := by
  unfold without
  rw [buckets]
  rfl

/-- One element is gone. -/
theorem HashTable.without_elemAt {b : Nat} :
    (pH.without h a before after).elemAt b = if b = a then none else pH.elemAt b :=
  unlink_value

/-- The rest is linked. -/
theorem HashTable.Linked.without (linked : pH.Linked (before ++ a :: after)) :
    (pH.without h a before after).Linked (before ++ after) := by
  refine ⟨?_, linked.segment.unlink linked.distinct, ?_⟩
  · unfold HashTable.without
    cases before with
    | nil => rfl
    | cons first rest =>
      have some_ : ((first :: rest).getLast?).isSome = true := by simp
      rw [if_pos some_, linked.first]
      rfl
  · have distinct := linked.distinct
    rw [nodup_middle, nodup_cons] at distinct
    exact distinct.2

/-- The buckets fit the list without the element. -/
theorem HashTable.Bucketed.without (bucketed : pH.Bucketed hash order) (distinct : order.Nodup)
    (member : a ∈ order) (own : pH.ht.isSome = true → pH.bucketAt hash a = some h) :
    ∃ before after, order = before ++ a :: after ∧
      (pH.without h a before after).Bucketed hash (before ++ after) := by
  cases buckets : pH.ht with
  | none =>
    obtain ⟨before, after, split⟩ := append_of_mem member
    refine ⟨before, after, split, ?_⟩
    unfold Bucketed HashTable.without at *
    rw [buckets] at bucketed ⊢
    exact bucketed
  | some ht =>
    have own := own (by rw [buckets]; rfl)
    unfold Bucketed at bucketed
    rw [buckets] at bucketed
    obtain ⟨positive, groups, fit⟩ := bucketed
    obtain ⟨⟨key, members⟩, inGroups, inGroup⟩ := mem_flatMap.1 (fit.joined ▸ member)
    obtain rfl : key = h := Option.some.inj ((fit.inside _ inGroups a inGroup).symm.trans own)
    obtain ⟨front, back, rfl⟩ := append_of_mem inGroups
    obtain ⟨left, right, rfl⟩ := append_of_mem inGroup
    have split : order = (front.flatMap Prod.snd ++ left) ++ a :: (right ++ back.flatMap Prod.snd) := by
      rw [fit.joined]
      simp
    refine ⟨_, _, split, ?_⟩
    have found := fit.found _ inGroups
    have others : ∀ b ∈ front.flatMap Prod.snd ++ left ++ (right ++ back.flatMap Prod.snd), b ≠ a := by
      rw [split, nodup_middle, nodup_cons] at distinct
      exact fun b inside same => distinct.1 (same ▸ inside)
    have agree : ∀ before after : List Nat, ∀ b, b ≠ a →
        (pH.without key a before after).bucketAt hash b = pH.bucketAt hash b := by
      intro before after b other
      unfold bucketAt
      rw [without_elemAt, if_neg other]
      rfl
    have agreeGroups : ∀ before after : List Nat, ∀ group ∈ front ++ back, ∀ b ∈ group.2,
        (pH.without key a before after).bucketAt hash b = pH.bucketAt hash b := by
      intro before after group inside b at_
      apply agree
      apply others
      rcases mem_append.1 inside with inFront | inBack
      · exact mem_append_left _ (mem_append_left _ (mem_flatMap.2 ⟨group, inFront, at_⟩))
      · exact mem_append_right _ (mem_append_right _ (mem_flatMap.2 ⟨group, inBack, at_⟩))
    have count : (ht key).count - 1 = (left ++ right).length := by
      rw [found]
      simp
    unfold Bucketed
    rw [without_ht buckets, count]
    refine ⟨positive, ?_⟩
    cases remaining : left ++ right with
    | nil =>
      obtain ⟨rfl, rfl⟩ := List.append_eq_nil_iff.1 remaining
      refine ⟨front ++ back, ?_⟩
      simpa using fit.drop (agreeGroups _ _)
    | cons x rest =>
      have chain : (if (ht key).chain = some a then (right ++ back.flatMap Prod.snd).head?
          else (ht key).chain) = (left ++ right).head? := by
        rw [found]
        cases left with
        | nil =>
          obtain rfl : right = x :: rest := remaining
          simp
        | cons y more =>
          have other : y ≠ a := others y (by simp)
          simp [other]
      rw [chain, ← remaining]
      refine ⟨front ++ (key, left ++ right) :: back, ?_⟩
      have some_ : left ++ right ≠ [] := by rw [remaining]; exact cons_ne_nil _ _
      have replaced := fit.replace some_ (fun b inside => ?_) (agreeGroups
        (front.flatMap Prod.snd ++ left) (right ++ back.flatMap Prod.snd))
      · simpa [List.append_assoc] using replaced
      · have kept : b ∈ left ++ a :: right := by
          rcases mem_append.1 inside with inLeft | inRight
          · exact mem_append_left _ inLeft
          · exact mem_append_right _ (mem_cons_of_mem _ inRight)
        have other : b ≠ a := by
          apply others
          rcases mem_append.1 inside with inLeft | inRight
          · exact mem_append_left _ (mem_append_right _ inLeft)
          · exact mem_append_right _ (mem_append_left _ inRight)
        rw [agree _ _ b other]
        exact fit.inside _ inGroups b kept

/-- What the removal of an element does to the table. -/
theorem removeElementGivenHash_spec (lawful : pH.Lawful hash order) (member : a ∈ order)
    (own : pH.ht.isSome = true → pH.bucketAt hash a = some h) :
    (removeElementGivenHash pH a h).Lawful hash (order.erase a) ∧
      ∀ b, (removeElementGivenHash pH a h).elemAt b = if b = a then none else pH.elemAt b := by
  obtain ⟨before, after, split, fits⟩ :=
    lawful.bucketed.without lawful.linked.distinct member own
  subst split
  have linked := lawful.linked.without (h := h)
  obtain ⟨value, cell⟩ := lawful.linked.segment.cell
  have result : removeElementGivenHash pH a h =
      if (pH.without h a before after).count = 0 then (pH.without h a before after).clear
      else pH.without h a before after := by
    simp only [removeElementGivenHash, cell]
    rfl
  have counted : (pH.without h a before after).count = (before ++ after).length := by
    change pH.count - 1 = _
    rw [lawful.counted]
    simp
  have elements : ∀ b, (pH.without h a before after).elemAt b =
      if b = a then none else pH.elemAt b := fun b => without_elemAt
  have complete : ∀ b, ((pH.without h a before after).elemAt b).isSome = true →
      b ∈ before ++ after := by
    intro b used
    rw [elements b] at used
    split_ifs at used with here
    · cases used
    · have member := lawful.elemAt_iff.1 used
      rcases mem_append.1 member with inFront | inBack
      · exact mem_append_left _ inFront
      · rcases mem_cons.1 inBack with same | inside
        · exact absurd same here
        · exact mem_append_right _ inside
  rw [erase_middle lawful.linked.distinct, result]
  split_ifs with last
  · have nothing : before ++ after = [] := List.length_eq_zero_iff.1 (counted.symm.trans last)
    rw [nothing] at complete ⊢
    refine ⟨⟨⟨rfl, trivial, nodup_nil⟩, rfl, rfl, (fun _ used => nomatch used),
      (fun _ member => nomatch member)⟩, fun b => ?_⟩
    rw [← elements b]
    exact (Option.not_isSome_iff_eq_none.1 fun used => nomatch complete b used).symm
  · refine ⟨⟨linked, fits, counted, fun b used => complete b ?_, fun b member => ?_⟩, elements⟩
    · rw [elemAt_isSome]
      exact used
    · apply lawful.fresh b
      rcases mem_append.1 member with inFront | inBack
      · exact mem_append_left _ inFront
      · exact mem_append_right _ (mem_cons_of_mem _ inBack)

end Remove

section Find

/-- One bucket; without buckets all keys have one. -/
def HashTable.SameBucket (hash : Key → Nat) (pH : HashTable Key Data) (key key' : Key) : Prop :=
  pH.ht.isSome = true → hash key % pH.htsize = hash key' % pH.htsize

section

variable (same) (lawful : pH.Lawful hash order) (key : Key)

include lawful

/-- A search visits the elements of the key's bucket. -/
theorem findElementWithHash_visits : ∃ visited : List Nat,
      findElementWithHash hash same pH key =
        visited.find? (fun a => (pH.elemAt a).any fun elem => same elem.key key) ∧
      ∀ a elem, pH.elemAt a = some elem → (a ∈ visited ↔ pH.SameBucket hash elem.key key) := by
  have inOrder : ∀ a elem, pH.elemAt a = some elem → a ∈ order := fun a elem at_ =>
    lawful.elemAt_iff.1 (by rw [at_]; rfl)
  have bucketed := lawful.bucketed
  unfold Bucketed at bucketed
  cases buckets : pH.ht with
  | none =>
    refine ⟨order, ?_, fun a elem at_ => ?_⟩
    · simp only [findElementWithHash, buckets, lawful.counted, lawful.linked.first]
      exact lawful.linked.segment.findLoop
    · have whole : pH.SameBucket hash elem.key key := fun sized => by
        rw [buckets] at sized
        cases sized
      exact iff_of_true (inOrder a elem at_) whole
  | some ht =>
    rw [buckets] at bucketed
    obtain ⟨-, groups, fit⟩ := bucketed
    have sized : pH.ht.isSome = true := by rw [buckets]; rfl
    have search : findElementWithHash hash same pH key =
        findLoop pH.mem (fun elem => same elem.key key) (ht (hash key % pH.htsize)).count
          (ht (hash key % pH.htsize)).chain := by
      simp only [findElementWithHash, bucketOf, buckets]
    have placed : ∀ a elem, pH.elemAt a = some elem → ∃ group ∈ groups, a ∈ group.2 ∧
        hash elem.key % pH.htsize = group.1 := by
      intro a elem at_
      obtain ⟨group, inside, member⟩ := mem_flatMap.1 (fit.joined ▸ inOrder a elem at_)
      refine ⟨group, inside, member, ?_⟩
      have bucket := fit.inside group inside a member
      rw [bucketAt, at_] at bucket
      exact Option.some.inj bucket
    rw [search]
    by_cases used : hash key % pH.htsize ∈ groups.map Prod.fst
    · obtain ⟨⟨number, members⟩, inside, same_⟩ := mem_map.1 used
      obtain rfl : number = hash key % pH.htsize := same_
      obtain ⟨front, back, rfl⟩ := append_of_mem inside
      have segment := lawful.linked.segment
      rw [fit.joined, List.flatMap_append, List.flatMap_cons] at segment
      have group := (Segment.append.1 (Segment.append.1 segment).2).1
      refine ⟨members, ?_, fun a elem at_ => ?_⟩
      · rw [fit.found _ inside]
        exact group.findLoop
      · constructor
        · intro member _
          have bucket := fit.inside _ inside a member
          rw [bucketAt, at_] at bucket
          exact Option.some.inj bucket
        · intro together
          obtain ⟨group', inside', member, number⟩ := placed a elem at_
          have equal := List.inj_on_of_nodup_map fit.distinct inside' inside
            (number.symm.trans (together sized))
          rw [equal] at member
          exact member
    · refine ⟨[], ?_, fun a elem at_ => ?_⟩
      · rw [fit.unused _ used]
        rfl
      · refine iff_of_false List.not_mem_nil fun together => ?_
        obtain ⟨group, inside, -, number⟩ := placed a elem at_
        exact used (mem_map.2 ⟨group, inside, number.symm.trans (together sized)⟩)

/-- A search finds an equal element of the bucket. -/
theorem findElementWithHash_spec : match findElementWithHash hash same pH key with
    | some a => ∃ elem, pH.elemAt a = some elem ∧ pH.SameBucket hash elem.key key ∧
        same elem.key key = true
    | none => ∀ a elem, pH.elemAt a = some elem → pH.SameBucket hash elem.key key →
        same elem.key key = false := by
  obtain ⟨visited, search, bucket⟩ := findElementWithHash_visits same lawful key
  rw [search]
  cases found : visited.find? (fun a => (pH.elemAt a).any fun elem => same elem.key key) with
  | none =>
    intro a elem at_ together
    have passed := List.find?_eq_none.1 found a ((bucket a elem at_).2 together)
    rw [at_] at passed
    simpa using passed
  | some a =>
    have test := List.find?_some found
    have member := List.mem_of_find?_eq_some found
    cases at_ : pH.elemAt a with
    | none =>
      rw [at_] at test
      cases test
    | some elem =>
      rw [at_] at test
      exact ⟨elem, at_, (bucket a elem at_).1 member, test⟩

end

/-- The data of an element. -/
theorem HashTable.dataAt_eq (at_ : pH.elemAt a = some elem) : pH.dataAt a = some elem.data := by
  obtain ⟨cell, here, rfl⟩ := Option.map_eq_some_iff.1 at_
  rw [dataAt, here]
  rfl

/-- A lookup that finds no data has found no element. -/
theorem HashTable.Lawful.search_none {same : Key → Key → Bool} {key : Key}
    (lawful : pH.Lawful hash order) (missed : hashFind hash same pH key = none) :
    findElementWithHash hash same pH key = none := by
  have spec := findElementWithHash_spec same lawful key
  cases search : findElementWithHash hash same pH key with
  | none => rfl
  | some a =>
    rw [search] at spec
    obtain ⟨elem, at_, -⟩ := spec
    rw [hashFind, search, Option.bind_some, dataAt_eq at_] at missed
    cases missed

/-- A bucket points to its new element. -/
theorem insertElement_bucket {ht : Nat → Bucket} (new h : Nat) (elem : HashElem Key Data)
    (buckets : pH.ht = some ht) :
    ∃ prev next first, insertElement pH (some h) new elem =
      { pH with
        ht := some (update ht h ⟨(ht h).count + 1, some new⟩)
        mem := link pH.mem new elem prev next
        first := first } := by
  by_cases empty : (ht h).count = 0
  · exact ⟨_, _, _, insertElement_first buckets empty⟩
  · cases chain : (ht h).chain with
    | none =>
      refine ⟨none, pH.first, some new, ?_⟩
      simp [insertElement, buckets, empty, chain]
    | some head => exact ⟨_, _, _, insertElement_before buckets empty chain⟩

/-- A search visits the new element first. -/
theorem insertElement_found (same : Key → Key → Bool) {key : Key} (data : Data)
    (counted : 0 < pH.count) (self : same key key = true) :
    findElementWithHash hash same
      (insertElement pH (pH.ht.map fun _ => bucketOf hash pH key) new ⟨data, key⟩) key =
        some new := by
  have visit : ∀ (count : Nat) (prev next : Option Nat), 0 < count →
      findLoop (link pH.mem new ⟨data, key⟩ prev next) (fun elem => same elem.key key) count
        (some new) = some new := by
    intro count prev next positive
    obtain ⟨count, rfl⟩ := Nat.exists_eq_succ_of_ne_zero (Nat.ne_of_gt positive)
    have value : (link pH.mem new ⟨data, key⟩ prev next new).map Cell.value = some ⟨data, key⟩ := by
      rw [link_value, if_pos rfl]
    obtain ⟨cell, here, value⟩ := Option.map_eq_some_iff.1 value
    simp only [findLoop, here, value, self, if_true]
  cases buckets : pH.ht with
  | none =>
    have front : insertElement pH none new ⟨data, key⟩ =
        { pH with mem := link pH.mem new ⟨data, key⟩ none pH.first, first := some new } := by
      simp [insertElement, buckets]
    rw [Option.map_none, front]
    simp only [findElementWithHash, buckets]
    exact visit _ _ _ counted
  | some ht =>
    obtain ⟨prev, next, first, placed⟩ := insertElement_bucket new (bucketOf hash pH key)
      ⟨data, key⟩ buckets
    have bucket : bucketOf hash pH key = hash key % pH.htsize := by simp only [bucketOf, buckets]
    rw [bucket] at placed
    rw [Option.map_some, bucket, placed]
    simp only [findElementWithHash, bucketOf, update_self]
    exact visit _ _ _ (Nat.succ_pos _)

/-- The same for an insertion. -/
theorem addElement_found (same : Key → Key → Bool) (lawful : pH.Lawful hash order) (alloc : Alloc)
    {key : Key} (data : Data) (self : same key key = true) :
    findElementWithHash hash same (addElement hash alloc pH key data) key = some pH.brk := by
  obtain ⟨_, -, -, -, kept⟩ := lawful.sized alloc
  have positive : (pH.sized hash alloc).count > 0 := kept.count ▸ Nat.succ_pos _
  exact insertElement_found same data positive self

end Find

section Entries

/-- What a table stores. -/
def HashTable.entries (pH : HashTable Key Data) : Multiset (HashElem Key Data) :=
  (pH.addresses.filterMap pH.elemAt : List (HashElem Key Data))

/-- A new table has none. -/
theorem HashTable.init_entries : (init : HashTable Key Data).entries = 0 := rfl

/-- Buckets are reduced hashes. -/
theorem bucketOf_sized (sized : pH.ht.isSome = true) (key : Key) :
    bucketOf hash pH key = hash key % pH.htsize := by
  obtain ⟨ht, buckets⟩ := Option.isSome_iff_exists.1 sized
  simp only [bucketOf, buckets]

variable (lawful : pH.Lawful hash order)

include lawful

/-- Following the list gives all elements. -/
theorem HashTable.Lawful.addresses_eq : pH.addresses = order := by
  unfold addresses
  rw [lawful.counted, lawful.linked.first]
  exact lawful.linked.segment.traverse

/-- Entries are elements. -/
theorem HashTable.Lawful.mem_entries : elem ∈ pH.entries ↔ ∃ a, pH.elemAt a = some elem := by
  unfold entries
  rw [lawful.addresses_eq, Multiset.mem_coe, List.mem_filterMap]
  constructor
  · rintro ⟨a, -, at_⟩
    exact ⟨a, at_⟩
  · rintro ⟨a, at_⟩
    exact ⟨a, lawful.elemAt_iff.1 (by rw [at_]; rfl), at_⟩

/-- One element more. -/
theorem HashTable.Lawful.entries_add {pH' : HashTable Key Data} {order' : List Nat}
    (lawful' : pH'.Lawful hash order') (absent : new ∉ order) (perm : order'.Perm (new :: order))
    (elements : ∀ a, pH'.elemAt a = if a = new then some elem else pH.elemAt a) :
    pH'.entries = elem ::ₘ pH.entries := by
  have rest : order.filterMap pH'.elemAt = order.filterMap pH.elemAt := by
    apply List.filterMap_congr
    intro a member
    have other : a ≠ new := fun same => absent (same ▸ member)
    rw [elements a, if_neg other]
  unfold entries
  rw [lawful'.addresses_eq, lawful.addresses_eq, Multiset.cons_coe, Multiset.coe_eq_coe]
  refine (perm.filterMap _).trans ?_
  rw [List.filterMap_cons, elements new, if_pos rfl, rest]

/-- One element less. -/
theorem HashTable.Lawful.entries_remove {pH' : HashTable Key Data}
    (lawful' : pH'.Lawful hash (order.erase a)) (member : a ∈ order) (at_ : pH.elemAt a = some elem)
    (elements : ∀ b, pH'.elemAt b = if b = a then none else pH.elemAt b) :
    pH.entries = elem ::ₘ pH'.entries := by
  have rest : (order.erase a).filterMap pH'.elemAt = (order.erase a).filterMap pH.elemAt := by
    apply List.filterMap_congr
    intro b inside
    rw [elements b, if_neg (lawful.linked.distinct.mem_erase_iff.1 inside).1]
  unfold entries
  rw [lawful'.addresses_eq, lawful.addresses_eq, Multiset.cons_coe, Multiset.coe_eq_coe, rest]
  refine ((List.perm_cons_erase member).filterMap _).trans ?_
  rw [List.filterMap_cons, at_]

/-- An insertion of a new key adds one element. -/
theorem addElement_entries (alloc : Alloc) (key : Key) (data : Data) :
    (∃ order', (addElement hash alloc pH key data).Lawful hash order') ∧
      (addElement hash alloc pH key data).entries = ⟨data, key⟩ ::ₘ pH.entries := by
  obtain ⟨order', perm, lawful', elements⟩ := addElement_spec alloc key data lawful
  have absent : pH.brk ∉ order := fun member => absurd (lawful.fresh _ member) (Nat.lt_irrefl _)
  exact ⟨⟨order', lawful'⟩, lawful.entries_add lawful' absent perm elements⟩

/-- A removal takes one element away. -/
theorem removeElement_entries (at_ : pH.elemAt a = some elem)
    (own : pH.ht.isSome = true → hash elem.key % pH.htsize = h) :
    (removeElementGivenHash pH a h).Lawful hash (order.erase a) ∧
      pH.entries = elem ::ₘ (removeElementGivenHash pH a h).entries := by
  have member : a ∈ order := lawful.elemAt_iff.1 (by rw [at_]; rfl)
  have bucket : pH.ht.isSome = true → pH.bucketAt hash a = some h := fun sized => by
    rw [bucketAt, at_, ← own sized]
    rfl
  obtain ⟨lawful', elements⟩ := removeElementGivenHash_spec lawful member bucket
  exact ⟨lawful', lawful.entries_remove lawful' member at_ elements⟩

/-- `sqlite3HashBlobRemoveElement` takes its element out. -/
theorem hashRemoveElement_spec (at_ : pH.elemAt a = some elem) :
    (hashRemoveElement hash pH a).Lawful hash (order.erase a) ∧
      ∀ b, (hashRemoveElement hash pH a).elemAt b = if b = a then none else pH.elemAt b := by
  obtain ⟨cell, here, rfl⟩ := Option.map_eq_some_iff.1 at_
  have member : a ∈ order := lawful.elemAt_iff.1 (by rw [at_]; rfl)
  have removed : hashRemoveElement hash pH a =
      removeElementGivenHash pH a (bucketOf hash pH cell.value.key) := by
    simp only [hashRemoveElement, here]
  rw [removed]
  refine removeElementGivenHash_spec lawful member fun sized => ?_
  rw [bucketAt, at_, bucketOf_sized sized]
  rfl

end Entries

end SQLumDash.Hash
