import BoundedCache.Proofs.Chain.Index
import BoundedCache.Proofs.Store.Entries
import BoundedCache.Proofs.Store.Simulation
import BoundedCache.Store.Lru

/-!
# Recency stores as lists

A recency store behaves as a plain list of its entries, from the one unused the longest: a use moves
an entry to the end of the list, and the head of the list gives way.

## Main definitions

- `Recency` — the list, with the number of entries it may hold, and the operations on it
- `Lru.WellFormed` — the chain and the index of a store agree
- `Lru.view` — the list that a store stands for

## Main results

- `Lru.WellFormed.get`, `Lru.WellFormed.put` and the like — what the operations do to the list
- `Lru.simulation` — every operation tells the same of the store and of the list
-/

namespace BoundedCache

open Keyed

/-! ## Plain lists -/

/-- A list of entries, from the one unused the longest, and the number of them that fit. -/
structure Recency (κ ν : Type) where
  capacity : Nat
  entries : List (Entry κ ν)

namespace Recency

variable {κ ν : Type} [DecidableEq κ]

def isFull (m : Recency κ ν) : Bool := m.capacity ≤ m.entries.length

/-- The key is bound. -/
def contains (m : Recency κ ν) (key : κ) : Bool := (find? Entry.key key m.entries).isSome

def peek (m : Recency κ ν) (key : κ) : Option ν := lookup? key m.entries

/-- Moves the entry of a key to the end. -/
def use (m : Recency κ ν) (key : κ) : Recency κ ν :=
  match find? Entry.key key m.entries with
  | none => m
  | some entry => { m with entries := erase Entry.key key m.entries ++ [entry] }

def get (m : Recency κ ν) (key : κ) : Option ν × Recency κ ν := (m.peek key, m.use key)

/-- Drops the head of the list. -/
def evict (m : Recency κ ν) : Option (Entry κ ν) × Recency κ ν :=
  (m.entries.head?, { m with entries := m.entries.tail })

/-- Drops an entry if there is no room for another one. -/
def makeRoom (m : Recency κ ν) : Option (Entry κ ν) × Recency κ ν :=
  if m.isFull then m.evict else (none, m)

/-- Adds an entry at the end. -/
def insertNew (m : Recency κ ν) (key : κ) (value : ν) : Recency κ ν :=
  { m with entries := m.entries ++ [⟨key, value⟩] }

/-- Binds a key, whose entry is the last one after that. -/
def put (m : Recency κ ν) (key : κ) (value : ν) : Option (Entry κ ν) × Recency κ ν :=
  if m.contains key then
    (none, { m with entries := erase Entry.key key m.entries ++ [⟨key, value⟩] })
  else
    let (displaced, m) := m.makeRoom
    (displaced, m.insertNew key value)

def remove (m : Recency κ ν) (key : κ) : Option ν × Recency κ ν :=
  (m.peek key, { m with entries := erase Entry.key key m.entries })

def clear (m : Recency κ ν) : Recency κ ν := { m with entries := [] }

/-- Drops the entries at the head that no longer fit. -/
def shrink (m : Recency κ ν) (capacity : Nat) : List (Entry κ ν) × Recency κ ν :=
  (m.entries.take (m.entries.length - capacity),
    { capacity, entries := m.entries.drop (m.entries.length - capacity) })

def resize (m : Recency κ ν) (capacity : Nat) :
    Except SetupError (List (Entry κ ν) × Recency κ ν) :=
  if capacity = 0 then .error .zeroCapacity else .ok (m.shrink capacity)

instance : Store (Recency κ ν) κ ν where
  size m := m.entries.length
  capacity := capacity
  entries := entries
  contains := contains
  peek := peek
  getAloud m key := announceLookup (m.get key)
  putAloud m key value := announce (m.put key value)
  remove := remove
  evictAloud m := announce m.evict
  clear := clear
  resizeAloud m capacity := (m.resize capacity).map announceAll
  put_announced _ _ _ := rfl
  evict_announced _ := rfl
  resize_announced _ _ _ h := Aloud.eq_announceAll h

theorem store_resize_eq (m : Recency κ ν) (capacity : Nat) :
    Store.resize m capacity = m.resize capacity :=
  Aloud.map_reported_announceAll _

theorem contains_eq_false_iff {m : Recency κ ν} {key : κ} :
    m.contains key = false ↔ find? Entry.key key m.entries = none := by
  rw [contains, Option.isSome_eq_false_iff, Option.isNone_iff_eq_none]

theorem contains_makeRoom_of_not {m : Recency κ ν} {key : κ} (h : m.contains key = false) :
    m.makeRoom.2.contains key = false := by
  rw [contains_eq_false_iff] at h ⊢
  rw [makeRoom]
  split
  · exact find?_eq_none_of_sublist h (List.tail_sublist _)
  · exact h

end Recency

namespace Lru

variable {κ ν : Type} [DecidableEq κ] [Hashable κ] {c : Lru κ ν} {k : κ} {i : Slot}
  {e : Entry κ ν} {l xs ys : List (Slot × Entry κ ν)}

/-! ## Agreement of chain and index -/

/-- The chain and the index of a store agree. -/
def WellFormed (c : Lru κ ν) : Prop := ∃ l, c.chain.Indexed Entry.key c.index l

/-- The list that a store stands for. -/
def view (c : Lru κ ν) : Recency κ ν := ⟨c.capacity, c.entries⟩

/-- Chain and index agree, and a list is what they stand for. -/
def StandsFor (c : Lru κ ν) (m : Recency κ ν) : Prop := c.WellFormed ∧ c.view = m

/-- An operation on a store tells and does what an operation on a list does. -/
abbrev Agrees {β : Type} (p : β × Lru κ ν) (q : β × Recency κ ν) : Prop := Matches StandsFor p q

theorem empty_wellFormed (capacity : Nat) : (empty capacity : Lru κ ν).WellFormed :=
  ⟨[], .empty⟩

theorem entries_eq (h : c.chain.Indexed Entry.key c.index l) :
    c.entries = (l.map Prod.snd).reverse := by
  rw [entries, h.represents.toListBack_eq]

theorem view_eq (h : c.chain.Indexed Entry.key c.index l) :
    c.view = ⟨c.capacity, (l.map Prod.snd).reverse⟩ := by
  rw [view, entries_eq h]

theorem find?_entries (h : c.chain.Indexed Entry.key c.index l) (k : κ) :
    find? Entry.key k c.entries = find? Entry.key k (l.map Prod.snd) := by
  rw [entries_eq h]
  exact (find?_perm h.distinct_values (List.reverse_perm _).symm).symm

/-! ## Reading -/

namespace WellFormed

theorem size_eq (h : c.WellFormed) : c.size = c.entries.length := by
  obtain ⟨l, hl⟩ := h
  rw [entries_eq hl, size, hl.represents.size_eq, List.length_reverse, List.length_map]

theorem isFull_eq (h : c.WellFormed) : c.isFull = c.view.isFull := by
  rw [isFull, Recency.isFull, h.size_eq]
  rfl

theorem contains_eq (h : c.WellFormed) (k : κ) : c.contains k = c.view.contains k := by
  obtain ⟨l, hl⟩ := h
  show c.index.contains k = (find? Entry.key k c.entries).isSome
  rw [find?_entries hl, hl.contains_eq]

theorem peek_eq (h : c.WellFormed) (k : κ) : c.peek k = c.view.peek k := by
  obtain ⟨l, hl⟩ := h
  show c.peek k = (find? Entry.key k c.entries).map Entry.value
  rw [find?_entries hl, ← hl.bind_get?, Option.map_bind]
  rfl

theorem oldest?_eq (h : c.WellFormed) : c.oldest? = c.entries.head? := by
  obtain ⟨l, hl⟩ := h
  rw [entries_eq hl, oldest?, hl.represents.back?_eq, List.head?_reverse, List.getLast?_map]

theorem newest?_eq (h : c.WellFormed) : c.newest? = c.entries.getLast? := by
  obtain ⟨l, hl⟩ := h
  rw [entries_eq hl, newest?, hl.represents.front?_eq, List.getLast?_reverse, List.head?_map]

end WellFormed

/-! ## Operations -/

/-- The entry of a key in the list that the store stands for, and what is left without it. -/
theorem entries_split (h : c.chain.Indexed Entry.key c.index (xs ++ (i, e) :: ys)) :
    find? Entry.key e.key c.entries = some e ∧
      erase Entry.key e.key c.entries = ((xs ++ ys).map Prod.snd).reverse := by
  have hd := h.distinct_values
  rw [find?_entries h, entries_eq h, erase_reverse]
  rw [List.map_append, List.map_cons] at hd ⊢
  rw [find?_append_cons hd, erase_append_cons hd, List.map_append]
  exact ⟨rfl, rfl⟩

theorem find?_entries_eq_none (h : c.chain.Indexed Entry.key c.index l)
    (hi : c.index[k]? = none) : find? Entry.key k c.entries = none := by
  rw [find?_entries h]
  exact h.index_eq_none_iff.1 hi

namespace WellFormed

theorem get (h : c.WellFormed) (k : κ) : Agrees (c.get k) (c.view.get k) := by
  obtain ⟨l, hl⟩ := h
  rcases hi : c.index[k]? with _ | i
  · have hnone : find? Entry.key k c.view.entries = none := find?_entries_eq_none hl hi
    rw [Lru.get_def, hi, Recency.get, Recency.peek, Recency.use, lookup?, hnone]
    exact ⟨rfl, ⟨l, hl⟩, rfl⟩
  · obtain ⟨xs, e, ys, rfl, rfl⟩ := hl.exists_split hi
    obtain ⟨hfind, herase⟩ := entries_split hl
    have hfind' : find? Entry.key e.key c.view.entries = some e := hfind
    have herase' : erase Entry.key e.key c.view.entries = _ := herase
    have hmoved := hl.relink hl.represents.moveToFront List.perm_middle.symm
    rw [Lru.get_def, hi, Recency.get, Recency.peek, Recency.use, lookup?, hfind']
    refine ⟨?_, ⟨_, hmoved⟩, ?_⟩
    · exact congrArg (Option.map Entry.value)
        (hmoved.represents.get?_eq_some_iff.2 List.mem_cons_self)
    · rw [view_eq hmoved, herase', List.map_cons, List.reverse_cons]
      rfl

/-- A lookup signals whether it finds a value. -/
theorem getAloud_eq (h : c.WellFormed) (k : κ) : c.getAloud k = announceLookup (c.get k) := by
  obtain ⟨l, hl⟩ := h
  rcases hi : c.index[k]? with _ | i
  · rw [getAloud, Lru.get_def, hi]
    rfl
  · obtain ⟨xs, e, ys, rfl, rfl⟩ := hl.exists_split hi
    have hmoved := hl.relink hl.represents.moveToFront List.perm_middle.symm
    have hfound := hmoved.represents.get?_eq_some_iff.2 List.mem_cons_self
    rw [getAloud, Lru.get_def, hi]
    exact Aloud.announceLookup_of_isSome (congrArg (Option.isSome <| ·.map Entry.value) hfound)

theorem evict (h : c.WellFormed) : Agrees c.evict c.view.evict := by
  obtain ⟨l, hl⟩ := h
  induction l using List.reverseRecOn with
  | nil =>
    rw [Lru.evict, hl.represents.popBack_nil, Recency.evict, view_eq hl]
    exact ⟨rfl, ⟨[], hl⟩, view_eq hl⟩
  | append_singleton l x _ =>
    have herased := hl.erase hl.represents.removeAt
    rw [Lru.evict, hl.represents.popBack_append_singleton, Recency.evict, view_eq hl,
      List.map_append, List.map_singleton, List.reverse_concat]
    refine ⟨rfl, ⟨_, herased⟩, ?_⟩
    rw [view_eq herased, List.append_nil]
    rfl

theorem makeRoom (h : c.WellFormed) : Agrees c.makeRoom c.view.makeRoom := by
  rw [Lru.makeRoom, Recency.makeRoom, h.isFull_eq]
  split
  · exact h.evict
  · exact ⟨rfl, h, rfl⟩

theorem insertNew (h : c.WellFormed) (hk : c.view.contains k = false) (v : ν) :
    (c.insertNew k v).WellFormed ∧ (c.insertNew k v).view = c.view.insertNew k v := by
  obtain ⟨l, hl⟩ := h
  have hnew : find? Entry.key k (l.map Prod.snd) = none := by
    rw [← find?_entries hl]
    exact Recency.contains_eq_false_iff.1 hk
  have hpush := hl.represents.pushFront ⟨k, v⟩
  have hinserted := hl.insert (x := ⟨k, v⟩) hnew hpush (.refl _)
  rw [← Chain.Represents.pushFront_fst c.chain ⟨k, v⟩] at hinserted
  refine ⟨⟨_, hinserted⟩, ?_⟩
  rw [view_eq hinserted, Recency.insertNew, view_eq hl, List.map_cons, List.reverse_cons]
  rfl

theorem put (h : c.WellFormed) (k : κ) (v : ν) : Agrees (c.put k v) (c.view.put k v) := by
  obtain ⟨l, hl⟩ := h
  rcases hi : c.index[k]? with _ | i
  · have hnone : c.view.contains k = false := by
      rw [Recency.contains, show c.view.entries = c.entries from rfl, find?_entries_eq_none hl hi]
      rfl
    obtain ⟨hfst, hwf, hview⟩ := makeRoom ⟨l, hl⟩
    have hk : c.makeRoom.2.view.contains k = false := by
      rw [hview]
      exact Recency.contains_makeRoom_of_not hnone
    rw [Lru.put_def, hi, Recency.put, if_neg (by rw [hnone]; exact Bool.false_ne_true)]
    obtain ⟨hwf', hview'⟩ := hwf.insertNew hk v
    exact ⟨hfst, hwf', hview'.trans (by rw [hview])⟩
  · obtain ⟨xs, e, ys, rfl, rfl⟩ := hl.exists_split hi
    obtain ⟨hfind, herase⟩ := entries_split hl
    have hbound : c.view.contains e.key = true := by
      rw [Recency.contains, show c.view.entries = c.entries from rfl, hfind]
      rfl
    have herase' : erase Entry.key e.key c.view.entries = _ := herase
    have hmoved := hl.relink hl.represents.moveToFront List.perm_middle.symm
    have hchanged := hmoved.modify (f := fun e => { e with value := v }) (fun _ => rfl) i
    rw [modify_cons_self hmoved.represents.distinct] at hchanged
    rw [Lru.put_def, hi, Recency.put, if_pos hbound, herase']
    refine ⟨rfl, ⟨_, hchanged⟩, ?_⟩
    rw [view_eq hchanged, List.map_cons, List.reverse_cons]
    rfl

theorem remove (h : c.WellFormed) (k : κ) : Agrees (c.remove k) (c.view.remove k) := by
  obtain ⟨l, hl⟩ := h
  rcases hi : c.index[k]? with _ | i
  · have hnone : find? Entry.key k c.view.entries = none := find?_entries_eq_none hl hi
    rw [Lru.remove, hi, Recency.remove, Recency.peek, lookup?, hnone,
      erase_eq_self (find?_eq_none_iff.1 hnone)]
    exact ⟨rfl, ⟨l, hl⟩, rfl⟩
  · obtain ⟨xs, e, ys, rfl, rfl⟩ := hl.exists_split hi
    obtain ⟨hfind, herase⟩ := entries_split hl
    have hfind' : find? Entry.key e.key c.view.entries = some e := hfind
    have herase' : erase Entry.key e.key c.view.entries = _ := herase
    have herased := hl.erase hl.represents.removeAt
    have hremove : c.remove e.key = (some e.value,
        { c with chain := (c.chain.unlink i).release i, index := c.index.erase e.key }) := by
      rw [Lru.remove, hi]
      simp only [hl.represents.remove_eq, Option.map_some]
    rw [hremove, Recency.remove, Recency.peek, lookup?, hfind', herase']
    exact ⟨rfl, ⟨_, herased⟩, view_eq herased⟩

theorem evictMany (h : c.WellFormed) (n : Nat) :
    Agrees (BoundedCache.evictMany Lru.evict n c)
      (c.entries.take n, { c.view with entries := c.entries.drop n }) := by
  let holds (d : Lru κ ν) (m : List (Entry κ ν)) : Prop :=
    d.WellFormed ∧ d.view = { c.view with entries := m }
  have hevict : ∀ d m, holds d m → Matches holds d.evict (dropHead m) := by
    rintro d m ⟨hd, hview⟩
    obtain ⟨hfst, hwf, hview'⟩ := hd.evict
    rw [hview] at hfst hview'
    exact ⟨hfst, hwf, hview'⟩
  obtain ⟨hfst, hwf, hview⟩ := evictMany_eq_take hevict ⟨h, rfl⟩ n
  exact ⟨hfst, hwf, hview⟩

end WellFormed

/-- The capacity after a change, and the entries that had to go. -/
def shrink (c : Lru κ ν) (n : Nat) : List (Entry κ ν) × Lru κ ν :=
  ((evictMany evict (c.size - n) c).1, { (evictMany evict (c.size - n) c).2 with capacity := n })

theorem resize_eq (c : Lru κ ν) (n : Nat) :
    c.resize n = if n = 0 then .error .zeroCapacity else .ok (c.shrink n) := by
  rw [resize_def, requireCapacity]
  split <;> rfl

theorem WellFormed.shrink (h : c.WellFormed) (n : Nat) :
    Agrees (c.shrink n) (c.view.shrink n) := by
  obtain ⟨hfst, ⟨l, hl⟩, hview⟩ := h.evictMany (c.size - n)
  rw [h.size_eq] at hfst hview
  refine ⟨?_, ⟨l, hl⟩, ?_⟩
  · rw [Lru.shrink, h.size_eq, hfst]
    rfl
  · have hentries := congrArg Recency.entries hview
    rw [← h.size_eq] at hentries
    rw [view, Recency.shrink, show (c.shrink n).2.entries = _ from hentries, h.size_eq]
    rfl

theorem clear_wellFormed (c : Lru κ ν) : c.clear.WellFormed := empty_wellFormed _

theorem view_clear (c : Lru κ ν) : c.clear.view = c.view.clear := by
  have hempty : c.clear.chain.Indexed Entry.key c.clear.index [] := .empty
  rw [view_eq hempty]
  rfl

/-- A store acts like the list that it stands for. -/
theorem simulation : Store.Simulation (StandsFor : Lru κ ν → Recency κ ν → Prop) where
  size_eq := by
    rintro c _ ⟨h, rfl⟩
    exact h.size_eq
  contains_eq := by
    rintro c _ ⟨h, rfl⟩
    exact h.contains_eq
  peek_eq := by
    rintro c _ ⟨h, rfl⟩
    exact h.peek_eq
  get := by
    rintro c _ ⟨h, rfl⟩
    exact h.get
  signals_get := by
    rintro c _ ⟨h, rfl⟩ k
    exact Store.signals_get_eq (h.getAloud_eq k) rfl (h.get k)
  put := by
    rintro c _ ⟨h, rfl⟩
    exact h.put
  remove := by
    rintro c _ ⟨h, rfl⟩
    exact h.remove
  evict := by
    rintro c _ ⟨h, rfl⟩
    exact h.evict
  clear := by
    rintro c _ ⟨h, rfl⟩
    exact ⟨clear_wellFormed c, view_clear c⟩
  resize := by
    rintro c _ ⟨h, rfl⟩ n
    show MatchesIfDone _ (c.resize n) (Store.resize c.view n)
    rw [resize_eq, Recency.store_resize_eq, Recency.resize]
    split
    · rfl
    · exact h.shrink n
  setSamples h _ := h

end Lru

end BoundedCache
