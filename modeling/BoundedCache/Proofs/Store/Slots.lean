import BoundedCache.Proofs.Chain.Reuse
import BoundedCache.Proofs.Lfu.Lawful
import BoundedCache.Proofs.Lru.Lawful
import Mathlib.Order.MinMax

/-!
# Slots of a store

A store that keeps its entries in a chain evicts before it adds an entry, so the chain never needs
more slots than the capacity at that time. A smaller capacity gives up no slots, and a larger one
allows for more, so it is the largest capacity of all that bounds them.

## Main definitions

- `Observed.peakCapacity` — the largest capacity that a store has had
- `Store.Spares` — only a put takes new slots, and then no more than the capacity allows

## Main results

- `Store.Spares.actAll` — the slots of a store after any actions
- `Lru.spares`, `Lfu.spares` — stores that keep their entries in a chain
- `slots_do_not_leak` — the slots of chains, and of the stores made of them
-/

namespace BoundedCache

/-! ## Stores that spare slots -/

/-- Evictions that each keep the slots keep them together. -/
theorem slots_evictMany {κ ν σ : Type} {evict : σ → Option (Entry κ ν) × σ}
    {slots : σ → Nat} (h : ∀ s, slots (evict s).2 = slots s) (n : Nat) (s : σ) :
    slots (evictMany evict n s).2 = slots s := by
  let keeps (t : σ) : Prop := slots t = slots s
  have hevict : ∀ t, keeps t → keeps (evict t).2 := fun t ht => (h t).trans ht
  exact evictMany_keeps hevict rfl n

section Spares

variable {κ ν σ : Type} [Store σ κ ν]

/-- The largest capacity that a store has had, from a certain state on. -/
def Observed.peakCapacity (o : Observed σ) : List (Observed.Action κ ν) → Nat
  | [] => Store.capacity o.store
  | action :: rest => max (Store.capacity o.store) ((o.act action).2.peakCapacity rest)

/-- Only a put takes new slots, and after it there are as many as before or no more than the
capacity allows. Slots are given up by a clear alone. -/
structure Store.Spares (Inv : σ → Prop) (slots : σ → Nat) : Prop where
  get : ∀ s k, slots (Store.get s k).2 = slots s
  put : ∀ {s}, Inv s → ∀ k v, slots (Store.put s k v).2 ≤ max (slots s) (Store.capacity s)
  remove : ∀ s k, slots (Store.remove s k).2 = slots s
  evict : ∀ s, slots (Store.evict s).2 = slots s
  clear : ∀ s, slots (Store.clear s) = 0
  resize : ∀ {s n dropped t}, Store.resize s n = .ok (dropped, t) → slots t = slots s
  setSamples : ∀ s n, slots (Store.setSamples s n) = slots s

namespace Store.Spares

variable {Inv : σ → Prop} {slots : σ → Nat}

theorem perform (h : Spares Inv slots) {s : σ} (hs : Inv s) (request : Request κ ν) :
    slots (Store.perform s request).2 ≤ max (slots s) (Store.capacity s) := by
  have hkept : ∀ {t}, slots t = slots s → slots t ≤ max (slots s) (Store.capacity s) :=
    fun ht => ht.trans_le (Nat.le_max_left ..)
  have hcleared : ∀ {t}, slots (Store.clear t) ≤ max (slots s) (Store.capacity s) :=
    fun {t} => (h.clear t).trans_le (Nat.zero_le _)
  cases request with
  | put key value => exact h.put hs key value
  | get key => exact hkept (h.get s key)
  | peek key => exact hkept rfl
  | contains key => exact hkept rfl
  | remove key => exact hkept (h.remove s key)
  | evict => exact hkept (h.evict s)
  | clear => exact hcleared
  | drain => exact hcleared
  | resize n =>
    rw [Store.perform_resize]
    rcases hresize : Store.resize s n with cause | ⟨dropped, t⟩
    · exact hkept rfl
    · exact hkept (h.resize hresize)

/-- However many actions there are, there are no more slots than at the start, or than the largest
capacity allows. -/
theorem actAll [DecidableEq κ] (h : Spares Inv slots) (hlaw : Store.Lawful Inv) (o : Observed σ)
    (ho : Inv o.store) (actions : List (Observed.Action κ ν)) :
    slots (o.actAll actions).2.store ≤ max (slots o.store) (o.peakCapacity actions) := by
  induction actions generalizing o with
  | nil => exact Nat.le_max_left ..
  | cons action rest ih =>
    rw [Observed.actAll_cons, Observed.peakCapacity]
    cases action with
    | request request =>
      have hstep := h.perform ho request
      rw [← Observed.store_perform] at hstep
      have hrest := ih (o.perform request).2 (hlaw.act ho (.request request))
      rw [← Nat.max_assoc]
      exact hrest.trans (max_le_max_right _ hstep)
    | listen listener =>
      have hrest := ih (o.listen listener) ho
      exact hrest.trans (max_le_max_left _ (Nat.le_max_right ..))
    | setSamples samples =>
      have hrest := ih (o.act (.setSamples samples)).2 (hlaw.act ho (.setSamples samples))
      have hsame : slots (o.act (.setSamples samples)).2.store = slots o.store :=
        h.setSamples o.store samples
      rw [hsame] at hrest
      exact hrest.trans (max_le_max_left _ (Nat.le_max_right ..))

/-- A store that is made with no slots never has more than the largest capacity allows. -/
theorem actAll_of_zero [DecidableEq κ] (h : Spares Inv slots) (hlaw : Store.Lawful Inv)
    (o : Observed σ) (ho : Inv o.store) (hzero : slots o.store = 0)
    (actions : List (Observed.Action κ ν)) :
    slots (o.actAll actions).2.store ≤ o.peakCapacity actions := by
  have hle := h.actAll hlaw o ho actions
  rwa [hzero, Nat.zero_max] at hle

end Store.Spares

end Spares

variable {κ ν : Type} [DecidableEq κ] [Hashable κ]

/-! ## Recency stores -/

namespace Lru

/-- The number of slots of the chain. -/
def slotCount (c : Lru κ ν) : Nat := c.chain.slots.size

theorem slotCount_get (c : Lru κ ν) (k : κ) : (c.get k).2.slotCount = c.slotCount := by
  rw [get_def]
  split
  · rfl
  · exact Chain.slots_size_moveToFront ..

theorem slotCount_evict (c : Lru κ ν) : c.evict.2.slotCount = c.slotCount := by
  have hchain : c.evict.2.chain = c.chain.popBack.2 := by
    rw [evict]
    split <;> next hpop => rw [hpop]
  rw [slotCount, hchain]
  exact Chain.slots_size_remove? ..

theorem slotCount_makeRoom (c : Lru κ ν) : c.makeRoom.2.slotCount = c.slotCount := by
  rw [makeRoom]
  split
  · exact slotCount_evict c
  · rfl

/-- A new entry takes a new slot only if there are no more slots than entries. -/
theorem Valid.slotCount_insertNew {c : Lru κ ν} (h : c.Valid) (k : κ) (v : ν) :
    (c.insertNew k v).slotCount = max c.slotCount (c.size + 1) := by
  obtain ⟨_, ⟨⟨l, hindexed⟩, -⟩, -⟩ := h
  exact hindexed.represents.slots_size_pushFront ⟨k, v⟩

theorem Valid.slotCount_put {c : Lru κ ν} (h : c.Valid) (k : κ) (v : ν) :
    (c.put k v).2.slotCount ≤ max c.slotCount c.capacity := by
  rw [Lru.put_def]
  split
  · refine Nat.le_trans (Nat.le_of_eq ?_) (Nat.le_max_left ..)
    exact (Chain.slots_size_modify ..).trans (Chain.slots_size_moveToFront ..)
  · -- After an entry has gone there is room for one more within the capacity.
    obtain ⟨hvalid, -, hlt⟩ := h.makeRoom.size_lt Valid.size_eq
    refine (hvalid.slotCount_insertNew k v).trans_le ?_
    rw [slotCount_makeRoom]
    exact max_le_max_left _ hlt

theorem slotCount_remove (c : Lru κ ν) (k : κ) : (c.remove k).2.slotCount = c.slotCount := by
  rw [remove]
  split
  · rfl
  · exact Chain.slots_size_remove ..

theorem slotCount_resize {c d : Lru κ ν} {n : Nat} {dropped : List (Entry κ ν)}
    (hd : c.resize n = .ok (dropped, d)) : d.slotCount = c.slotCount := by
  rw [resize_eq] at hd
  obtain ⟨-, hd⟩ := ite_throw_eq_ok_iff.1 hd
  cases hd
  exact slots_evictMany slotCount_evict ..

theorem spares : Store.Spares (Valid : Lru κ ν → Prop) slotCount where
  get := slotCount_get
  put h := h.slotCount_put
  remove := slotCount_remove
  evict := slotCount_evict
  clear _ := rfl
  resize := slotCount_resize
  setSamples _ _ := rfl

end Lru

/-! ## Frequency stores -/

namespace Lfu

/-- The number of slots of the chain. -/
def slotCount (c : Lfu κ ν) : Nat := c.chain.slots.size

theorem slotCount_leaveOnce (c : Lfu κ ν) (i : Slot) : (c.leaveOnce i).slotCount = c.slotCount := by
  rw [leaveOnce]
  split
  · rfl
  · split
    · rfl
    · exact Chain.slots_size_moveBefore ..

theorem slotCount_overtake (c : Lfu κ ν) (i : Slot) : (c.overtake i).slotCount = c.slotCount := by
  rw [overtake]
  split
  · rfl
  · split
    · exact Chain.slots_size_moveBefore ..
    · rfl

theorem slotCount_countUse (c : Lfu κ ν) (i : Slot) : (c.countUse i).slotCount = c.slotCount := by
  rw [countUse, slotCount_overtake]
  split
  · rw [slotCount_leaveOnce]
    exact Chain.slots_size_modify ..
  · exact Chain.slots_size_modify ..

theorem slotCount_get (c : Lfu κ ν) (k : κ) : (c.get k).2.slotCount = c.slotCount := by
  rw [get_def]
  split
  · rfl
  · exact slotCount_countUse ..

theorem slotCount_takeAt (c : Lfu κ ν) (i : Slot) : (c.takeAt i).2.slotCount = c.slotCount := by
  have hchain : (c.takeAt i).2.chain = (c.chain.remove i).2 := by
    rw [takeAt]
    split <;> next hremove => rw [hremove]
  rw [slotCount, hchain]
  exact Chain.slots_size_remove ..

theorem slotCount_evict (c : Lfu κ ν) : c.evict.2.slotCount = c.slotCount := by
  rw [evict]
  split
  · rfl
  · exact slotCount_takeAt ..

theorem slotCount_makeRoom (c : Lfu κ ν) : c.makeRoom.2.slotCount = c.slotCount := by
  rw [makeRoom]
  split
  · exact slotCount_evict c
  · rfl

/-- A new entry takes a new slot only if there are no more slots than entries. -/
theorem Valid.slotCount_insertNew {c : Lfu κ ν} (h : c.Valid) (k : κ) (v : ν) :
    (c.insertNew k v).slotCount = max c.slotCount (c.size + 1) := by
  obtain ⟨_, ⟨⟨often, once, hranks⟩, -⟩, -⟩ := h
  have hrepresents := hranks.indexed.represents
  rw [insertNew]
  cases c.onceFront with
  | none => exact hrepresents.slots_size_pushBack _
  | some head => exact hrepresents.slots_size_insertBefore head _

theorem Valid.makeRoom {c : Lfu κ ν} (h : c.Valid) : Store.MakesRoom Valid c c.makeRoom :=
  Store.makesRoom_of_evicts h h.size_eq (lawful.size_le h) (lawful.capacity_pos h)
    decide_eq_true_iff h.evict

theorem Valid.slotCount_put {c : Lfu κ ν} (h : c.Valid) (k : κ) (v : ν) :
    (c.put k v).2.slotCount ≤ max c.slotCount c.capacity := by
  rw [Lfu.put_def]
  split
  · exact Nat.le_trans (Nat.le_of_eq (Chain.slots_size_modify ..)) (Nat.le_max_left ..)
  · obtain ⟨hvalid, -, hlt⟩ := h.makeRoom.size_lt Valid.size_eq
    refine (hvalid.slotCount_insertNew k v).trans_le ?_
    rw [slotCount_makeRoom]
    exact max_le_max_left _ hlt

theorem slotCount_remove (c : Lfu κ ν) (k : κ) : (c.remove k).2.slotCount = c.slotCount := by
  rw [remove]
  split
  · rfl
  · exact slotCount_takeAt ..

theorem slotCount_resize {c d : Lfu κ ν} {n : Nat} {dropped : List (Entry κ ν)}
    (hd : c.resize n = .ok (dropped, d)) : d.slotCount = c.slotCount := by
  rw [resize_eq] at hd
  obtain ⟨-, hd⟩ := ite_throw_eq_ok_iff.1 hd
  cases hd
  exact slots_evictMany slotCount_evict ..

theorem spares : Store.Spares (Valid : Lfu κ ν → Prop) slotCount where
  get := slotCount_get
  put h := h.slotCount_put
  remove := slotCount_remove
  evict := slotCount_evict
  clear _ := rfl
  resize := slotCount_resize
  setSamples _ _ := rfl

end Lfu

/-! ## Chains, and the stores made of them -/

/-- Whatever is done with a chain, its free list holds the empty slots, each of them once; it has as
many slots as were in use at a time since the last clear, and gives out none beyond them. Inside a
store the chain never has more slots than the largest capacity that the store has had. -/
theorem slots_do_not_leak {α κ ν : Type} [DecidableEq κ] [Hashable κ] :
    (∀ commands : List (Chain.Command α),
      let c := Chain.performAll ∅ commands
      c.free.Nodup ∧ (∀ i, i ∈ c.free ↔ c.slots[i]? = some none) ∧
        c.slots.size = Chain.peak commands ∧
        ∀ command i, (c.perform command).1 = .slot i → i < Chain.peak (commands ++ [command])) ∧
    (∀ {n : Nat} {s : Lru κ ν}, Lru.create n = .ok s →
      ∀ (listener : Option Nat) (actions : List (Observed.Action κ ν)),
        let o : Observed (Lru κ ν) := { store := s, listener }
        (o.actAll actions).2.store.chain.slots.size ≤ o.peakCapacity actions) ∧
    (∀ {n : Nat} {s : Lfu κ ν}, Lfu.create n = .ok s →
      ∀ (listener : Option Nat) (actions : List (Observed.Action κ ν)),
        let o : Observed (Lfu κ ν) := { store := s, listener }
        (o.actAll actions).2.store.chain.slots.size ≤ o.peakCapacity actions) := by
  refine ⟨fun commands => ?_, fun {n s} hs listener actions => ?_,
    fun {n s} hs listener actions => ?_⟩
  · obtain ⟨l, h⟩ := Chain.represents_empty.performAll commands
    exact ⟨h.arena.free_nodup, h.arena.mem_free_iff_empty, Chain.slots_size_performAll commands,
      fun _ _ hi => Chain.lt_peak_of_slot commands hi⟩
  · obtain ⟨-, rfl⟩ := Lru.create_eq_ok_iff.1 hs
    exact Lru.spares.actAll_of_zero Lru.lawful _ (Lru.create_holds hs).inv rfl actions
  · obtain ⟨-, rfl⟩ := Lfu.create_eq_ok_iff.1 hs
    exact Lfu.spares.actAll_of_zero Lfu.lawful _ (Lfu.create_holds hs).inv rfl actions

/-- A slot that was emptied is given out again, and a store that may hold three entries in the end
has three slots, however many entries came and went. -/
theorem slots_do_not_leak_grown :
    let commands : List (Chain.Command Nat) := [.pushFront 10, .pushFront 20, .remove 0, .remove 0]
    let actions : List (Observed.Action Nat Nat) :=
      [.request (.put 1 10), .request (.put 2 20), .request (.put 3 30), .request (.resize 3),
        .request (.remove 2), .request (.put 4 40), .request (.put 5 50), .request (.put 6 60)]
    (((Chain.performAll ∅ commands).perform (.pushFront 30)).1 = .slot 0 ∧
      0 < Chain.peak (commands ++ [.pushFront 30])) ∧
    (∃ s : Lru Nat Nat, Lru.create 2 = .ok s ∧
      let o : Observed (Lru Nat Nat) := { store := s }
      o.peakCapacity actions = 3 ∧ (o.actAll actions).2.store.chain.slots.size ≤ 3) ∧
    ∃ s : Lfu Nat Nat, Lfu.create 2 = .ok s ∧
      let o : Observed (Lfu Nat Nat) := { store := s }
      o.peakCapacity actions = 3 ∧ (o.actAll actions).2.store.chain.slots.size ≤ 3 := by
  intro commands actions
  obtain ⟨hchain, hlru, hlfu⟩ := slots_do_not_leak (α := Nat) (κ := Nat) (ν := Nat)
  refine ⟨⟨rfl, ?_⟩, ⟨.empty 2, rfl, ?_⟩, ⟨.empty 2, rfl, ?_⟩⟩
  · obtain ⟨-, -, -, hlt⟩ := hchain commands
    exact hlt (.pushFront 30) 0 rfl
  · have hpeak : Observed.peakCapacity { store := (.empty 2 : Lru Nat Nat) } actions = 3 := by cbv
    exact ⟨hpeak, (hlru (n := 2) rfl none actions).trans_eq hpeak⟩
  · have hpeak : Observed.peakCapacity { store := (.empty 2 : Lfu Nat Nat) } actions = 3 := by cbv
    exact ⟨hpeak, (hlfu (n := 2) rfl none actions).trans_eq hpeak⟩

end BoundedCache
