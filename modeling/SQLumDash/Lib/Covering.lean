import Mathlib.Data.Multiset.AddSub

/-!
# Locks that cover pending keys

Every pending key is related to that of a lock of its client, and locks of related keys have one
owner. Pending keys of different clients are then not related.
-/

namespace Covering

/-- How locks, keys and clients are read. -/
structure Scheme (Lock Owner Key Client : Type) where
  owner : Lock → Owner
  key : Lock → Key
  /-- The owner of a client's locks. -/
  name : Client → Owner
  /-- Keys of which only one client may have one. -/
  related : Key → Key → Prop
  symm : ∀ {a b}, related a b → related b a
  trans : ∀ {a b c}, related a b → related b c → related a c

namespace Scheme

variable {Lock Owner Key Client : Type} {scheme : Scheme Lock Owner Key Client}

/-- The locks cover the pending keys. -/
structure Covers (scheme : Scheme Lock Owner Key Client) (locks : Multiset Lock)
    (pending : Client → Key → Prop) : Prop where
  locked : ∀ client key, pending client key →
    ∃ lock ∈ locks, scheme.owner lock = scheme.name client ∧ scheme.related (scheme.key lock) key
  owned : ∀ lock ∈ locks, ∀ lock' ∈ locks,
    scheme.related (scheme.key lock) (scheme.key lock') → scheme.owner lock = scheme.owner lock'

variable {locks locks' : Multiset Lock} {pending pending' : Client → Key → Prop} {lock : Lock}
  {client client' : Client} {key key' : Key}

section

variable (covers : scheme.Covers locks pending)

include covers

/-- What is newly pending is locked already. -/
theorem Covers.written
    (written : ∀ client key, pending' client key → pending client key ∨ ∃ lock ∈ locks,
      scheme.owner lock = scheme.name client ∧ scheme.related (scheme.key lock) key) :
    scheme.Covers locks pending' where
  locked client key after := (written client key after).elim (covers.locked client key) id
  owned := covers.owned

/-- A client gets a lock if it has all on related keys. -/
theorem Covers.granted (mine : scheme.owner lock = scheme.name client)
    (alone : ∀ other ∈ locks, scheme.related (scheme.key other) (scheme.key lock) →
      scheme.owner other = scheme.name client)
    (written : ∀ client' key, pending' client' key → pending client' key ∨
      client' = client ∧ scheme.related (scheme.key lock) key) :
    scheme.Covers (lock ::ₘ locks) pending' := by
  constructor
  · intro client' key after
    rcases written client' key after with before | ⟨rfl, related⟩
    · obtain ⟨held, member, owns, related⟩ := covers.locked client' key before
      exact ⟨held, Multiset.mem_cons_of_mem member, owns, related⟩
    · exact ⟨lock, Multiset.mem_cons_self lock locks, mine, related⟩
  · have own : ∀ other ∈ locks, scheme.related (scheme.key other) (scheme.key lock) →
        scheme.owner other = scheme.owner lock := fun other member related =>
      (alone other member related).trans mine.symm
    intro first member second member' related
    rcases Multiset.mem_cons.1 member with rfl | inside
    · rcases Multiset.mem_cons.1 member' with rfl | inside'
      · rfl
      · exact (own second inside' (scheme.symm related)).symm
    · rcases Multiset.mem_cons.1 member' with rfl | inside'
      · exact own first inside related
      · exact covers.owned first inside second inside' related

/-- Locks that no client needs are given up. -/
theorem Covers.released (fewer : locks' ⊆ locks)
    (kept : ∀ client key, pending' client key → pending client key ∧ ∀ lock ∈ locks,
      scheme.owner lock = scheme.name client → scheme.related (scheme.key lock) key →
      lock ∈ locks') : scheme.Covers locks' pending' := by
  constructor
  · intro client key after
    obtain ⟨before, stays⟩ := kept client key after
    obtain ⟨lock, member, owns, related⟩ := covers.locked client key before
    exact ⟨lock, stays lock member owns related, owns, related⟩
  · exact fun lock member lock' member' related =>
      covers.owned lock (fewer member) lock' (fewer member') related

/-- A lock on a key related to a pending one is the client's. -/
theorem Covers.owner_eq (writes : pending client key) (member : lock ∈ locks)
    (related : scheme.related (scheme.key lock) key) : scheme.owner lock = scheme.name client := by
  obtain ⟨own, inside, owns, equal⟩ := covers.locked client key writes
  have owner := covers.owned lock member own inside (scheme.trans related (scheme.symm equal))
  exact owner.trans owns

/-- Clients with related keys pending have one name. -/
theorem Covers.name_eq (writes : pending client key) (writes' : pending client' key')
    (related : scheme.related key key') : scheme.name client = scheme.name client' := by
  obtain ⟨lock, member, owns, equal⟩ := covers.locked client key writes
  have owner := covers.owner_eq writes' member (scheme.trans equal related)
  exact owns.symm.trans owner

end

end Scheme

end Covering
