import BoundedCache.Proofs.Store.Lawful

/-!
# Two stores as one

Two stores that bind different keys, read as one map. Looking up, removing and evicting try one of
them first and then the other one.

## Main definitions

- `Store.Joined` — both stores are in order, and no key is bound in both
- `Store.removeEither`, `Store.evictEither` — try the first store, then the second one

## Main results

- `Store.Joined.exchange_left`, `Store.Joined.exchange_right` — a store may change as long as no key
  moves unnoticed
- `Store.Joined.leave_left`, `Store.Joined.leave_right` — an entry leaves one of them
- `Store.Joined.remove`, `Store.Joined.evict` — what is left of both stores
-/

namespace BoundedCache

open Keyed

variable {κ ν σ τ : Type}

namespace Store

variable [Store σ κ ν] [Store τ κ ν]

/-- Unbinds a key in the first store, or else in the second one. -/
def removeEither (s : σ) (t : τ) (key : κ) : Option ν × σ × τ :=
  match remove s key with
  | (some value, s) => (some value, s, t)
  | (none, s) =>
    let (value, t) := remove t key
    (value, s, t)

/-- Drops an entry of the first store, or else of the second one. -/
def evictEither (s : σ) (t : τ) : Option (Entry κ ν) × σ × τ :=
  match evict s with
  | (some entry, s) => (some entry, s, t)
  | (none, s) =>
    let (entry, t) := evict t
    (entry, s, t)

/-- Both stores are in order, and no key is bound in both. -/
structure Joined (I : σ → Prop) (J : τ → Prop) (s : σ) (t : τ) : Prop where
  left : I s
  right : J t
  disjoint : List.Disjoint (keys (entries s)) (keys (entries t))

namespace Joined

variable {I : σ → Prop} {J : τ → Prop} {s s' : σ} {t t' : τ} {k : κ} {v : ν}
  {ls lt : List (Entry κ ν)} {m n : Nat}

theorem symm (h : Joined I J s t) : Joined J I t s := 
  ⟨h.right, h.left, List.disjoint_symm h.disjoint⟩

/-- Either store may come to bind keys that the other one does not bind. -/
theorem exchange_left (h : Joined I J s t) (hs : Holds I m ls s')
    (hkeys : ∀ k ∈ keys ls, k ∈ keys (entries s) ∨ k ∉ keys (entries t)) : Joined I J s' t where
  left := hs.inv
  right := h.right
  disjoint := disjoint_exchange_left h.disjoint fun k hk => hkeys k ((mem_keys_perm hs.perm).1 hk)

theorem exchange_right (h : Joined I J s t) (ht : Holds J n lt t')
    (hkeys : ∀ k ∈ keys lt, k ∈ keys (entries t) ∨ k ∉ keys (entries s)) : Joined I J s t' :=
  (h.symm.exchange_left ht hkeys).symm

/-- An entry that leaves one store is in neither of them after that. -/
theorem leave_left (h : Joined I J s t) (hd : Distinct Entry.key (entries s)) {e : Entry κ ν}
    (hp : (entries s).Perm (e :: ls)) (hs : Holds I m ls s') :
    Joined I J s' t ∧ e.key ∉ keys (entries s') ∧ e.key ∉ keys (entries t) := by
  refine ⟨?_, ?_, ?_⟩
  · exact h.exchange_left hs fun k hk => .inl (mem_keys_of_rest hp hk)
  · rw [mem_keys_perm hs.perm]
    exact not_mem_keys_rest hd hp
  · exact h.disjoint (head_mem_keys hp)

theorem leave_right (h : Joined I J s t) (hd : Distinct Entry.key (entries t)) {e : Entry κ ν}
    (hp : (entries t).Perm (e :: lt)) (ht : Holds J n lt t') :
    Joined I J s t' ∧ e.key ∉ keys (entries s) ∧ e.key ∉ keys (entries t') := by
  obtain ⟨hjoined, hout, hout'⟩ := h.symm.leave_left hd hp ht
  exact ⟨hjoined.symm, hout', hout⟩

/-- Both stores may lose keys. -/
theorem narrow (h : Joined I J s t) (hs : Holds I m ls s') (ht : Holds J n lt t')
    (hls : keys ls ⊆ keys (entries s)) (hlt : keys lt ⊆ keys (entries t)) : Joined I J s' t' where
  left := hs.inv
  right := ht.inv
  disjoint := by
    refine disjoint_mono h.disjoint ?_ ?_
    · exact List.Subset.trans (keys_subset_of_perm hs.perm) hls
    · exact List.Subset.trans (keys_subset_of_perm ht.perm) hlt

theorem perm (hs : Holds I m ls s) (ht : Holds J n lt t) :
    (entries s ++ entries t).Perm (ls ++ lt) :=
  hs.perm.append ht.perm

variable [DecidableEq κ]

/-! ## Reading -/

theorem distinct (h : Joined I J s t) (hI : Lawful I) (hJ : Lawful J) :
    Distinct Entry.key (entries s ++ entries t) :=
  distinct_append_iff_disjoint.2 ⟨hI.distinct h.left, hJ.distinct h.right, h.disjoint⟩

theorem size_eq (h : Joined I J s t) (hI : Lawful I) (hJ : Lawful J) :
    size s + size t = (entries s ++ entries t).length := by
  rw [hI.size_eq h.left, hJ.size_eq h.right, List.length_append]

theorem contains_eq (h : Joined I J s t) (hI : Lawful I) (hJ : Lawful J) (k : κ) :
    (contains s k || contains t k) = (lookup? k (entries s ++ entries t)).isSome := by
  rw [hI.contains_eq h.left, hJ.contains_eq h.right, lookup?_append, Option.isSome_or]

theorem peek_eq (h : Joined I J s t) (hI : Lawful I) (hJ : Lawful J) (k : κ) :
    (peek s k).or (peek t k) = lookup? k (entries s ++ entries t) := by
  rw [hI.peek_eq h.left, hJ.peek_eq h.right, lookup?_append]

/-- It does not matter which store is asked first. -/
theorem lookup?_comm (h : Joined I J s t) (hI : Lawful I) (hJ : Lawful J) (k : κ) :
    lookup? k (entries s ++ entries t) = lookup? k (entries t ++ entries s) :=
  lookup?_perm (h.distinct hI hJ) List.perm_append_comm k

/-! ## Losing entries -/

/-- A removal leaves both stores without the key. -/
theorem remove (h : Joined I J s t) (hI : Lawful I) (hJ : Lawful J) (k : κ) :
    let p := removeEither s t k
    p.1 = lookup? k (entries s ++ entries t) ∧ Joined I J p.2.1 p.2.2 ∧
      Holds I (capacity s) (erase Entry.key k (entries s)) p.2.1 ∧
      Holds J (capacity t) (erase Entry.key k (entries t)) p.2.2 := by
  intro p
  have hlosses : p.1 = lookup? k (entries s ++ entries t) ∧
      Holds I (capacity s) (erase Entry.key k (entries s)) p.2.1 ∧
      Holds J (capacity t) (erase Entry.key k (entries t)) p.2.2 := by
    obtain ⟨hvalue, hs⟩ := hI.remove h.left k
    simp only [p]
    rw [removeEither, lookup?_append, ← hvalue]
    rcases hremove : Store.remove s k with ⟨_ | w, s'⟩ <;> rw [hremove] at hvalue hs
    · obtain ⟨hvalue', ht⟩ := hJ.remove h.right k
      exact ⟨hvalue', hs, ht⟩
    · have hbound : k ∈ keys (entries s) := by
        rw [← lookup?_ne_none_iff, ← hvalue]
        exact Option.some_ne_none w
      refine ⟨rfl, hs, ?_⟩
      rw [erase_eq_self_of_not_mem (h.disjoint hbound)]
      exact ⟨h.right, rfl, .refl _⟩
  obtain ⟨hvalue, hs, ht⟩ := hlosses
  refine ⟨hvalue, h.narrow hs ht ?_ ?_, hs, ht⟩
  · exact fun k' hk' => (mem_keys_erase.1 hk').1
  · exact fun k' hk' => (mem_keys_erase.1 hk').1

/-- An eviction drops an entry of one store, if there is one. -/
theorem evict (h : Joined I J s t) (hI : Lawful I) (hJ : Lawful J) :
    let p := evictEither s t
    (p.1 = none ↔ entries s ++ entries t = []) ∧ Joined I J p.2.1 p.2.2 ∧
      ∃ ls lt, (entries s ++ entries t).Perm (p.1.toList ++ (ls ++ lt)) ∧
        Holds I (capacity s) ls p.2.1 ∧ Holds J (capacity t) lt p.2.2 := by
  have hlaw := hI.evict h.left
  rw [evictEither]
  rcases hevict : Store.evict s with ⟨_ | e, s'⟩ <;> rw [hevict] at hlaw
  · obtain ⟨hnil, hs⟩ := hlaw.of_none rfl
    obtain ⟨⟨rest, hp, ht⟩, hnone⟩ := hJ.evict h.right
    have hjoined := h.narrow hs ht (List.nil_subset _)
      fun k hk => mem_keys_of_kept hp hk
    rw [hnil]
    exact ⟨hnone, hjoined, [], rest, hp, hs, ht⟩
  · obtain ⟨rest, hp, hs⟩ := hlaw.of_some rfl
    have hjoined := h.exchange_left hs fun k hk => .inl (mem_keys_of_rest hp hk)
    refine ⟨⟨fun hnone => absurd hnone (Option.some_ne_none e), fun hnil => ?_⟩, hjoined, rest,
      entries t, hp.append_right _, hs, h.right, rfl, .refl _⟩
    rw [(List.append_eq_nil_iff.1 hnil).1] at hp
    exact absurd hp.symm.eq_nil (List.cons_ne_nil _ _)

/-! ## Binding a key -/

/-- A key that is not bound in the other store comes to a store that binds it or has room for it.
Nothing is displaced. -/
theorem put_left (h : Joined I J s t) (hI : Lawful I) (hk : k ∉ keys (entries t))
    (hroom : k ∈ keys (entries s) ∨ size s < capacity s) (v : ν) :
    let s' := (put s k v).2
    (put s k v).1 = none ∧ Holds I (capacity s) (⟨k, v⟩ :: erase Entry.key k (entries s)) s' ∧
      Joined I J s' t ∧
      (entries s' ++ entries t).Perm (⟨k, v⟩ :: erase Entry.key k (entries s ++ entries t)) := by
  intro s'
  obtain ⟨hnone, hs⟩ := (hI.put h.left k v).of_room (hroom.imp_left lookup?_ne_none_iff.2)
  refine ⟨hnone, hs, h.exchange_left hs ?_, append_insert_left hs.perm ?_⟩
  · intro k' hk'
    rcases (mem_keys_insert (.refl _)).1 hk' with rfl | hold
    · exact .inr hk
    · exact .inl hold
  · rw [erase_eq_self_of_not_mem hk]

theorem put_right (h : Joined I J s t) (hJ : Lawful J) (hk : k ∉ keys (entries s))
    (hroom : k ∈ keys (entries t) ∨ size t < capacity t) (v : ν) :
    let t' := (put t k v).2
    (put t k v).1 = none ∧ Holds J (capacity t) (⟨k, v⟩ :: erase Entry.key k (entries t)) t' ∧
      Joined I J s t' ∧
      (entries s ++ entries t').Perm (⟨k, v⟩ :: erase Entry.key k (entries s ++ entries t)) := by
  intro t'
  obtain ⟨hnone, ht, hjoined, hp⟩ := h.symm.put_left hJ hk hroom v
  refine ⟨hnone, ht, hjoined.symm, List.perm_append_comm.trans (hp.trans (.cons _ ?_))⟩
  exact erase_perm List.perm_append_comm k

/-- A key that is bound in neither store comes to one that has room for it. -/
theorem insert_left (h : Joined I J s t) (hI : Lawful I) (hs : k ∉ keys (entries s))
    (ht : k ∉ keys (entries t)) (hroom : size s < capacity s) (v : ν) :
    let s' := (put s k v).2
    (put s k v).1 = none ∧ Holds I (capacity s) (⟨k, v⟩ :: entries s) s' ∧ Joined I J s' t ∧
      (entries s' ++ entries t).Perm (⟨k, v⟩ :: (entries s ++ entries t)) := by
  intro s'
  obtain ⟨hnone, hput, hjoined, hp⟩ := h.put_left hI ht (.inr hroom) v
  rw [erase_append, erase_eq_self_of_not_mem ht, erase_eq_self_of_not_mem hs] at hp
  rw [erase_eq_self_of_not_mem hs] at hput
  exact ⟨hnone, hput, hjoined, hp⟩

theorem insert_right (h : Joined I J s t) (hJ : Lawful J) (hs : k ∉ keys (entries s))
    (ht : k ∉ keys (entries t)) (hroom : size t < capacity t) (v : ν) :
    let t' := (put t k v).2
    (put t k v).1 = none ∧ Holds J (capacity t) (⟨k, v⟩ :: entries t) t' ∧ Joined I J s t' ∧
      (entries s ++ entries t').Perm (⟨k, v⟩ :: (entries s ++ entries t)) := by
  intro t'
  obtain ⟨hnone, hput, hjoined, hp⟩ := h.symm.insert_left hJ ht hs hroom v
  exact ⟨hnone, hput, hjoined.symm,
    List.perm_append_comm.trans (hp.trans (.cons _ List.perm_append_comm))⟩

end Joined

end Store

end BoundedCache
