import BoundedCache.Proofs.Store.Entries
import BoundedCache.Proofs.Store.Simulation

/-!
# Stores are bounded maps

What every store promises, whatever its rule of eviction. Entries are compared as lists up to their
order: nothing gets lost and nothing is doubled, and whatever leaves the store is told.

## Main definitions

- `Store.Holds` — a state in order that lists certain entries
- `Store.Gets`, `Store.Puts`, `Store.Removes`, `Store.Evicts` — what the operations promise
- `Store.Lawful` — all promises together, for the states in which an invariant holds

## Main results

- `Store.Puts.of_room` — nothing is displaced while there is room
- `Store.MakesRoom.puts` — a new key is bound once there is room
- `Store.evictMany_of_evicts` — repeated eviction tells all that it drops
- `Store.Lawful.actAll` — the invariant holds after any actions
- `Store.Lawful.of_forall` — a store is lawful if it is so in each of several cases
- `Store.Lawful.of_simulation` — a store that acts like a lawful one is lawful
-/

namespace BoundedCache

open Keyed

variable {κ ν σ τ : Type} {k : κ} {v : ν} {e : Entry κ ν} {l : List (Entry κ ν)}

namespace Store

variable [Store σ κ ν] [Store τ κ ν] {Inv : σ → Prop} {s t : σ}

/-! ## Making room -/

/-- A state is in order, has a certain capacity, and lists certain entries in some order. -/
structure Holds (Inv : σ → Prop) (capacity : Nat) (l : List (Entry κ ν)) (s : σ) : Prop where
  inv : Inv s
  capacity_eq : Store.capacity s = capacity
  perm : (entries s).Perm l

theorem Holds.mono {I J : σ → Prop} (hIJ : ∀ {s}, I s → J s) {n : Nat} (h : Holds I n l s) :
    Holds J n l s :=
  ⟨hIJ h.inv, h.capacity_eq, h.perm⟩

/-- An eviction tells the entry that it drops, and drops one unless there is none. -/
structure Evicts (Inv : σ → Prop) (s : σ) (p : Option (Entry κ ν) × σ) : Prop where
  exists_rest : ∃ rest, (entries s).Perm (p.1.toList ++ rest) ∧ Holds Inv (capacity s) rest p.2
  eq_none_iff : p.1 = none ↔ entries s = []

theorem evicts_none (hnil : entries s = []) (ht : Holds Inv (capacity s) [] t) :
    Evicts Inv s (none, t) where
  exists_rest := by
    rw [hnil]
    exact ⟨[], .refl _, ht⟩
  eq_none_iff := ⟨fun _ => hnil, fun _ => rfl⟩

theorem evicts_some {rest : List (Entry κ ν)} (hp : (entries s).Perm (e :: rest))
    (ht : Holds Inv (capacity s) rest t) : Evicts Inv s (some e, t) where
  exists_rest := ⟨rest, hp, ht⟩
  eq_none_iff := by
    refine ⟨fun h => absurd h (Option.some_ne_none e), fun h => ?_⟩
    rw [h] at hp
    exact absurd hp.symm.eq_nil (List.cons_ne_nil _ _)

/-- An eviction keeps whatever else it leaves as it was. -/
theorem Evicts.and {P : σ → Prop} {p : Option (Entry κ ν) × σ} (h : Evicts Inv s p) (hP : P p.2) :
    Evicts (fun s => Inv s ∧ P s) s p where
  exists_rest := by
    obtain ⟨rest, hp, ht⟩ := h.exists_rest
    exact ⟨rest, hp, ⟨ht.inv, hP⟩, ht.capacity_eq, ht.perm⟩
  eq_none_iff := h.eq_none_iff

theorem Evicts.of_some {p : Option (Entry κ ν) × σ} (h : Evicts Inv s p) (he : p.1 = some e) :
    ∃ rest, (entries s).Perm (e :: rest) ∧ Holds Inv (capacity s) rest p.2 := by
  obtain ⟨rest, hp, ht⟩ := h.exists_rest
  rw [he] at hp
  exact ⟨rest, hp, ht⟩

theorem Evicts.of_none {p : Option (Entry κ ν) × σ} (h : Evicts Inv s p) (he : p.1 = none) :
    entries s = [] ∧ Holds Inv (capacity s) [] p.2 := by
  obtain ⟨rest, hp, ht⟩ := h.exists_rest
  have hnil := h.eq_none_iff.1 he
  rw [he, hnil, Option.toList_none, List.nil_append] at hp
  rw [List.nil_perm.1 hp] at ht
  exact ⟨hnil, ht⟩

/-- What an eviction gives, told by whether there is an entry. -/
theorem Evicts.cases {p : Option (Entry κ ν) × σ} (h : Evicts Inv s p) :
    (p = (none, p.2) ∧ entries s = [] ∧ Holds Inv (capacity s) [] p.2) ∨
      ∃ e rest, p = (some e, p.2) ∧ (entries s).Perm (e :: rest) ∧
        Holds Inv (capacity s) rest p.2 := by
  rcases he : p.1 with _ | e
  · obtain ⟨hnil, hrest⟩ := h.of_none he
    exact .inl ⟨Prod.ext he rfl, hnil, hrest⟩
  · obtain ⟨rest, hp, hrest⟩ := h.of_some he
    exact .inr ⟨e, rest, Prod.ext he rfl, hp, hrest⟩

/-- Repeated eviction tells all that it drops, and drops as many as it is asked to. -/
theorem evictMany_of_evicts {evict : σ → Option (Entry κ ν) × σ}
    (hsize : ∀ {s}, Inv s → size s = (entries s).length)
    (hevict : ∀ {s}, Inv s → Evicts Inv s (evict s)) {s : σ} (h : Inv s) (n : Nat) :
    ∃ rest, (entries s).Perm ((evictMany evict n s).1 ++ rest) ∧
      Holds Inv (capacity s) rest (evictMany evict n s).2 ∧
      size (evictMany evict n s).2 = size s - n := by
  induction n generalizing s with
  | zero => exact ⟨entries s, .refl _, ⟨h, rfl, .refl _⟩, rfl⟩
  | succ n ih =>
    have hlaw := hevict h
    rcases heq : evict s with ⟨_ | e, t⟩
    · -- There was nothing left, so all entries have been told.
      rw [heq] at hlaw
      obtain ⟨hnil, ht⟩ := hlaw.of_none rfl
      rw [evictMany_succ_of_none heq, hnil]
      refine ⟨[], .refl _, ht, ?_⟩
      rw [hsize h, hsize ht.inv, hnil, List.perm_nil.1 ht.perm, List.length_nil, Nat.zero_sub]
    · rw [heq] at hlaw
      obtain ⟨rest, hp, ht⟩ := hlaw.of_some rfl
      obtain ⟨rest', hp', ht', hsize'⟩ := ih ht.inv
      rw [evictMany_succ_of_some heq]
      refine ⟨rest', hp.trans ((ht.perm.symm.trans hp').cons e), ?_, ?_⟩
      · rw [← ht.capacity_eq]
        exact ht'
      · have hlength := hp.length_eq
        rw [List.length_cons, ← hsize h, ← ht.perm.length_eq, ← hsize ht.inv] at hlength
        rw [hsize']
        omega

/-- As many evictions as there are too many entries leave no more than fit. -/
theorem evictMany_excess_of_evicts {evict : σ → Option (Entry κ ν) × σ}
    (hsize : ∀ {s}, Inv s → size s = (entries s).length)
    (hevict : ∀ {s}, Inv s → Evicts Inv s (evict s)) {s : σ} (h : Inv s) (n : Nat) :
    ∃ rest, (entries s).Perm ((evictMany evict (size s - n) s).1 ++ rest) ∧
      Holds Inv (capacity s) rest (evictMany evict (size s - n) s).2 ∧
      size (evictMany evict (size s - n) s).2 ≤ n := by
  obtain ⟨rest, hp, ht, hsize⟩ := evictMany_of_evicts hsize hevict h (size s - n)
  exact ⟨rest, hp, ht, by omega⟩

/-- An entry goes if there is no room for another one, so that there is room after that. -/
structure MakesRoom (Inv : σ → Prop) (s : σ) (p : Option (Entry κ ν) × σ) : Prop where
  exists_rest : ∃ rest, (entries s).Perm (p.1.toList ++ rest) ∧ Holds Inv (capacity s) rest p.2 ∧
    rest.length < capacity s
  isSome_iff : p.1.isSome ↔ size s = capacity s

/-- Room is made by an eviction from a store that is full. -/
theorem makesRoom_of_evicts {p : Option (Entry κ ν) × σ} {full : Bool} (hinv : Inv s)
    (hsize : size s = (entries s).length) (hle : size s ≤ capacity s) (hpos : 0 < capacity s)
    (hfull : full = true ↔ capacity s ≤ size s) (hevict : Evicts Inv s p) :
    MakesRoom Inv s (if full then p else (none, s)) := by
  split
  · next hclosed =>
    have hfull := hfull.1 hclosed
    -- A full store has an entry, since its capacity is not zero.
    have hsome : p.1 ≠ none := by
      intro hnone
      have hnil := hevict.eq_none_iff.1 hnone
      rw [hnil, List.length_nil] at hsize
      omega
    obtain ⟨e, he⟩ := Option.ne_none_iff_exists'.1 hsome
    obtain ⟨rest, hp, ht⟩ := hevict.of_some he
    have hlength := hp.length_eq
    rw [List.length_cons] at hlength
    refine ⟨⟨rest, ?_, ht, by omega⟩, ?_⟩
    · rw [he]
      exact hp
    · rw [he]
      exact ⟨fun _ => by omega, fun _ => rfl⟩
  · next hopen =>
    have hroom := mt hfull.2 hopen
    refine ⟨⟨entries s, .refl _, ⟨hinv, rfl, .refl _⟩, by omega⟩, ?_⟩
    refine ⟨fun h => absurd h Bool.false_ne_true, fun h => ?_⟩
    omega

/-- There is room once an entry has gone if there was none. -/
theorem MakesRoom.size_lt {p : Option (Entry κ ν) × σ}
    (hsize : ∀ {s}, Inv s → size s = (entries s).length) (h : MakesRoom Inv s p) :
    Inv p.2 ∧ capacity p.2 = capacity s ∧ size p.2 < capacity s := by
  obtain ⟨rest, -, hrest, hlt⟩ := h.exists_rest
  refine ⟨hrest.inv, hrest.capacity_eq, ?_⟩
  rwa [hsize hrest.inv, hrest.perm.length_eq]

/-- No key is bound by making room. -/
theorem MakesRoom.not_mem_keys {p : Option (Entry κ ν) × σ} (h : MakesRoom Inv s p)
    (hk : k ∉ keys (entries s)) : k ∉ keys (entries p.2) := by
  obtain ⟨rest, hp, hrest, -⟩ := h.exists_rest
  intro hmem
  exact hk (mem_keys_of_kept hp ((mem_keys_perm hrest.perm).1 hmem))

theorem holds_of_related {R : σ → τ → Prop} {J : τ → Prop}
    (hentries : ∀ {s t}, R s t → entries s = entries t)
    (hcapacity : ∀ {s t}, R s t → capacity s = capacity t) {n : Nat} {s : σ} {t : τ} (hst : R s t)
    (ht : Holds J n l t) : Holds (fun s => ∃ t, R s t ∧ J t) n l s where
  inv := ⟨t, hst, ht.inv⟩
  capacity_eq := by rw [hcapacity hst, ht.capacity_eq]
  perm := by
    rw [hentries hst]
    exact ht.perm

/-! ## Parts that lose nothing -/

omit [Store σ κ ν] in
/-- The state after a put that displaced nothing. Where a store is part of another one, an entry
that it displaced would be lost without being told. -/
def undisturbed {ε : Type} : Option ε × σ → Option σ
  | (none, s) => some s
  | (some _, _) => none

omit [Store σ κ ν] in
theorem undisturbed_of_none {ε : Type} {p : Option ε × σ} (h : p.1 = none) :
    undisturbed p = some p.2 := by
  obtain ⟨_, s⟩ := p
  cases h
  rfl

variable [DecidableEq κ]

/-! ## The laws -/

/-- A lookup tells the value of the key and loses nothing. -/
structure Gets (Inv : σ → Prop) (s : σ) (k : κ) (p : Option ν × σ) : Prop where
  value_eq : p.1 = lookup? k (entries s)
  holds : Holds Inv (capacity s) (entries s) p.2

/-- A removal tells the value of the key, and loses its entry only. -/
structure Removes (Inv : σ → Prop) (s : σ) (k : κ) (p : Option ν × σ) : Prop where
  value_eq : p.1 = lookup? k (entries s)
  holds : Holds Inv (capacity s) (erase Entry.key k (entries s)) p.2

/-- A put binds the key, in what is left after an entry has gone if the key is new and there was no
room; that entry is told. -/
structure Puts (Inv : σ → Prop) (s : σ) (k : κ) (v : ν) (p : Option (Entry κ ν) × σ) : Prop where
  exists_rest : ∃ rest, (entries s).Perm (p.1.toList ++ rest) ∧
    Holds Inv (capacity s) (⟨k, v⟩ :: erase Entry.key k rest) p.2
  isSome_iff : p.1.isSome ↔ lookup? k (entries s) = none ∧ size s = capacity s

/-- The operations act as those of a map with a bounded number of entries, and keep an invariant. A
lookup signals whether it finds a value, and the number of samples does not matter for the
bindings. -/
structure Lawful (Inv : σ → Prop) : Prop where
  distinct : ∀ {s}, Inv s → Distinct Entry.key (entries s)
  size_eq : ∀ {s}, Inv s → size s = (entries s).length
  size_le : ∀ {s}, Inv s → size s ≤ capacity s
  capacity_pos : ∀ {s}, Inv s → 0 < capacity s
  contains_eq : ∀ {s}, Inv s → ∀ k, contains s k = (lookup? k (entries s)).isSome
  peek_eq : ∀ {s}, Inv s → ∀ k, peek s k = lookup? k (entries s)
  get : ∀ {s}, Inv s → ∀ k, Gets Inv s k (get s k)
  put : ∀ {s}, Inv s → ∀ k v, Puts Inv s k v (put s k v)
  remove : ∀ {s}, Inv s → ∀ k, Removes Inv s k (remove s k)
  evict : ∀ {s}, Inv s → Evicts Inv s (evict s)
  clear : ∀ {s}, Inv s → Holds Inv (capacity s) [] (clear s)
  resize : ∀ {s}, Inv s → ∀ n dropped t, resize s n = .ok (dropped, t) →
    ∃ rest, (entries s).Perm (dropped ++ rest) ∧ Holds Inv n rest t
  getAloud_eq : ∀ {s}, Inv s → ∀ k, getAloud s k = announceLookup (Store.get s k)
  setSamples : ∀ {s}, Inv s → ∀ n, Holds Inv (capacity s) (entries s) (setSamples s n)

/-- Nothing needs to go for a key that is bound, or while there is room. -/
theorem puts_none (hroom : lookup? k (entries s) ≠ none ∨ size s < capacity s)
    (ht : Holds Inv (capacity s) (⟨k, v⟩ :: erase Entry.key k (entries s)) t) :
    Puts Inv s k v (none, t) where
  exists_rest := ⟨entries s, .refl _, ht⟩
  isSome_iff := by
    refine ⟨fun h => absurd h Bool.false_ne_true, ?_⟩
    rintro ⟨hfree, hfull⟩
    rcases hroom with hbound | hroom
    · exact absurd hfree hbound
    · exact absurd hfull (Nat.ne_of_lt hroom)

/-- Nothing is displaced by a key that is bound, or while there is room. -/
theorem Puts.of_room {p : Option (Entry κ ν) × σ} (h : Puts Inv s k v p)
    (hroom : lookup? k (entries s) ≠ none ∨ size s < capacity s) :
    p.1 = none ∧ Holds Inv (capacity s) (⟨k, v⟩ :: erase Entry.key k (entries s)) p.2 := by
  have hnone : p.1 = none := by
    rw [← Option.not_isSome_iff_eq_none, h.isSome_iff]
    rintro ⟨hfree, hfull⟩
    rcases hroom with hbound | hroom
    · exact hbound hfree
    · omega
  obtain ⟨rest, hp, ht⟩ := h.exists_rest
  rw [hnone] at hp
  refine ⟨hnone, ht.inv, ht.capacity_eq, ht.perm.trans ?_⟩
  exact (erase_perm hp.symm k).cons _

/-- A new key is bound once there is room for it. -/
theorem MakesRoom.puts {p : Option (Entry κ ν) × σ} (h : MakesRoom Inv s p)
    (hk : k ∉ keys (entries s))
    (ht : Holds Inv (capacity s) (⟨k, v⟩ :: entries p.2) t) : Puts Inv s k v (p.1, t) where
  exists_rest := by
    obtain ⟨rest, hp, hrest, -⟩ := h.exists_rest
    have hfree : k ∉ keys rest := mt (mem_keys_perm hrest.perm).2 (h.not_mem_keys hk)
    refine ⟨rest, hp, ht.inv, ht.capacity_eq, ht.perm.trans ?_⟩
    rw [erase_eq_self_of_not_mem hfree]
    exact hrest.perm.cons _
  isSome_iff := by
    rw [h.isSome_iff, lookup?_eq_none_iff]
    exact ⟨fun hfull => ⟨hk, hfull⟩, fun hfull => hfull.2⟩

namespace Lawful

theorem contains_iff (hlaw : Lawful Inv) (h : Inv s) (k : κ) :
    contains s k = true ↔ k ∈ keys (entries s) := by
  rw [hlaw.contains_eq h, Option.isSome_iff_ne_none, lookup?_ne_none_iff]

/-- What was put is found. -/
theorem peek_put (hlaw : Lawful Inv) (h : Inv s) (k : κ) (v : ν) :
    peek (Store.put s k v).2 k = some v := by
  obtain ⟨rest, -, hrest⟩ := (hlaw.put h k v).exists_rest
  rw [hlaw.peek_eq hrest.inv, lookup?_perm (hlaw.distinct hrest.inv) hrest.perm]
  exact lookup?_cons_self k v _

/-- A lookup finds a value if its key is bound. -/
theorem isSome_get (hlaw : Lawful Inv) (h : Inv s) (k : κ) :
    (Store.get s k).1.isSome = contains s k := by
  rw [(hlaw.get h k).value_eq, hlaw.contains_eq h]

/-- Evicting everything tells every entry, and leaves none. -/
theorem drain (hlaw : Lawful Inv) (h : Inv s) :
    (entries s).Perm (Store.drain s).1 ∧ Holds Inv (capacity s) [] (Store.drain s).2 := by
  obtain ⟨rest, hperm, hholds, hsize⟩ := evictMany_of_evicts hlaw.size_eq hlaw.evict h (size s)
  have hrest : rest = [] := by
    rw [hlaw.size_eq hholds.inv, hholds.perm.length_eq, Nat.sub_self] at hsize
    exact List.length_eq_zero_iff.1 hsize
  rw [hrest, List.append_nil] at hperm
  have hclear := hlaw.clear hholds.inv
  rw [hholds.capacity_eq] at hclear
  rw [drain_eq]
  exact ⟨hperm, hclear⟩

/-! ## Runs -/

theorem perform (hlaw : Lawful Inv) (h : Inv s) (request : Request κ ν) :
    Inv (Store.perform s request).2 := by
  cases request with
  | put key value => exact (hlaw.put h key value).exists_rest.elim fun _ hrest => hrest.2.inv
  | get key => exact (hlaw.get h key).holds.inv
  | peek key => exact h
  | contains key => exact h
  | remove key => exact (hlaw.remove h key).holds.inv
  | evict => exact (hlaw.evict h).exists_rest.elim fun _ hrest => hrest.2.inv
  | clear => exact (hlaw.clear h).inv
  | drain => exact (hlaw.drain h).2.inv
  | resize capacity =>
    rw [perform_resize]
    rcases hresize : Store.resize s capacity with cause | ⟨dropped, t⟩
    · exact h
    · obtain ⟨rest, -, ht⟩ := hlaw.resize h capacity dropped t hresize
      exact ht.inv

/-- Only a request to change the capacity does so. -/
theorem capacity_perform (hlaw : Lawful Inv) (h : Inv s) {request : Request κ ν}
    (hrequest : ∀ n, request ≠ .resize n) :
    capacity (Store.perform s request).2 = capacity s := by
  cases request with
  | put key value =>
    exact (hlaw.put h key value).exists_rest.elim fun _ hrest => hrest.2.capacity_eq
  | get key => exact (hlaw.get h key).holds.capacity_eq
  | peek key => rfl
  | contains key => rfl
  | remove key => exact (hlaw.remove h key).holds.capacity_eq
  | evict => exact (hlaw.evict h).exists_rest.elim fun _ hrest => hrest.2.capacity_eq
  | clear => exact (hlaw.clear h).capacity_eq
  | drain => exact (hlaw.drain h).2.capacity_eq
  | resize n => exact absurd rfl (hrequest n)

/-- What a lookup signals is what it replies. -/
theorem perform_get (hlaw : Lawful Inv) (h : Inv s) (k : κ) :
    Store.perform s (.get k) = (.lookup (Store.get s k).1, (Store.get s k).2) :=
  Store.perform_get s (hlaw.getAloud_eq h k)

/-- An action keeps the invariant. -/
theorem act (hlaw : Lawful Inv) {o : Observed σ} (h : Inv o.store)
    (action : Observed.Action κ ν) : Inv (o.act action).2.store := by
  cases action with
  | request request =>
    have hnext := hlaw.perform h request
    rw [← Observed.store_perform] at hnext
    exact hnext
  | listen listener => exact h
  | setSamples samples => exact (hlaw.setSamples h samples).inv

/-- The invariant holds after any actions. -/
theorem actAll (hlaw : Lawful Inv) {o : Observed σ} (h : Inv o.store)
    (actions : List (Observed.Action κ ν)) : Inv (o.actAll actions).2.store := by
  induction actions generalizing o with
  | nil => exact h
  | cons action rest ih => exact ih (hlaw.act h action)

/-! ## Lawful by cases -/

/-- A store is lawful if its states fall into families that are. -/
theorem of_forall {ι : Type} {Inv : ι → σ → Prop} (hlaw : ∀ i, Lawful (Inv i)) :
    Lawful fun s => ∃ i, Inv i s where
  distinct := fun ⟨i, h⟩ => (hlaw i).distinct h
  size_eq := fun ⟨i, h⟩ => (hlaw i).size_eq h
  size_le := fun ⟨i, h⟩ => (hlaw i).size_le h
  capacity_pos := fun ⟨i, h⟩ => (hlaw i).capacity_pos h
  contains_eq := fun ⟨i, h⟩ => (hlaw i).contains_eq h
  peek_eq := fun ⟨i, h⟩ => (hlaw i).peek_eq h
  get := by
    rintro s ⟨i, h⟩ k
    obtain ⟨hvalue, hholds⟩ := (hlaw i).get h k
    exact ⟨hvalue, hholds.mono fun h => ⟨i, h⟩⟩
  put := by
    rintro s ⟨i, h⟩ k v
    obtain ⟨⟨rest, hperm, hholds⟩, hisSome⟩ := (hlaw i).put h k v
    exact ⟨⟨rest, hperm, hholds.mono fun h => ⟨i, h⟩⟩, hisSome⟩
  remove := by
    rintro s ⟨i, h⟩ k
    obtain ⟨hvalue, hholds⟩ := (hlaw i).remove h k
    exact ⟨hvalue, hholds.mono fun h => ⟨i, h⟩⟩
  evict := by
    rintro s ⟨i, h⟩
    obtain ⟨⟨rest, hperm, hholds⟩, hnone⟩ := (hlaw i).evict h
    exact ⟨⟨rest, hperm, hholds.mono fun h => ⟨i, h⟩⟩, hnone⟩
  clear := fun ⟨i, h⟩ => ((hlaw i).clear h).mono fun h => ⟨i, h⟩
  resize := by
    rintro s ⟨i, h⟩ n dropped t ht
    obtain ⟨rest, hperm, hholds⟩ := (hlaw i).resize h n dropped t ht
    exact ⟨rest, hperm, hholds.mono fun h => ⟨i, h⟩⟩
  getAloud_eq := fun ⟨i, h⟩ => (hlaw i).getAloud_eq h
  setSamples := fun ⟨i, h⟩ n => ((hlaw i).setSamples h n).mono fun h => ⟨i, h⟩

/-! ## Lawful by simulation -/

/-- A store is lawful if it acts like a lawful one and lists the same entries. -/
theorem of_simulation {R : σ → τ → Prop} {J : τ → Prop} (hR : Simulation R)
    (hentries : ∀ {s t}, R s t → entries s = entries t)
    (hcapacity : ∀ {s t}, R s t → capacity s = capacity t) (hlaw : Lawful J) :
    Lawful fun s => ∃ t, R s t ∧ J t where
  distinct := by
    rintro s ⟨t, hst, ht⟩
    rw [hentries hst]
    exact hlaw.distinct ht
  size_eq := by
    rintro s ⟨t, hst, ht⟩
    rw [hentries hst, hR.size_eq hst]
    exact hlaw.size_eq ht
  size_le := by
    rintro s ⟨t, hst, ht⟩
    rw [hR.size_eq hst, hcapacity hst]
    exact hlaw.size_le ht
  capacity_pos := by
    rintro s ⟨t, hst, ht⟩
    rw [hcapacity hst]
    exact hlaw.capacity_pos ht
  contains_eq := by
    rintro s ⟨t, hst, ht⟩ k
    rw [hR.contains_eq hst, hentries hst]
    exact hlaw.contains_eq ht k
  peek_eq := by
    rintro s ⟨t, hst, ht⟩ k
    rw [hR.peek_eq hst, hentries hst]
    exact hlaw.peek_eq ht k
  get := by
    rintro s ⟨t, hst, ht⟩ k
    obtain ⟨hfst, hsnd⟩ := hR.get hst k
    obtain ⟨hvalue, hholds⟩ := hlaw.get ht k
    rw [← hentries hst] at hvalue hholds
    rw [← hcapacity hst] at hholds
    exact ⟨hfst.trans hvalue, holds_of_related hentries hcapacity hsnd hholds⟩
  put := by
    rintro s ⟨t, hst, ht⟩ k v
    obtain ⟨hfst, hsnd⟩ := hR.put hst k v
    obtain ⟨⟨rest, hperm, hholds⟩, hisSome⟩ := hlaw.put ht k v
    rw [← hfst, ← hentries hst] at hperm hisSome
    rw [← hcapacity hst] at hholds hisSome
    rw [← hR.size_eq hst] at hisSome
    exact ⟨⟨rest, hperm, holds_of_related hentries hcapacity hsnd hholds⟩, hisSome⟩
  remove := by
    rintro s ⟨t, hst, ht⟩ k
    obtain ⟨hfst, hsnd⟩ := hR.remove hst k
    obtain ⟨hvalue, hholds⟩ := hlaw.remove ht k
    rw [← hentries hst] at hvalue hholds
    rw [← hcapacity hst] at hholds
    exact ⟨hfst.trans hvalue, holds_of_related hentries hcapacity hsnd hholds⟩
  evict := by
    rintro s ⟨t, hst, ht⟩
    obtain ⟨hfst, hsnd⟩ := hR.evict hst
    obtain ⟨⟨rest, hperm, hholds⟩, hnone⟩ := hlaw.evict ht
    rw [← hfst, ← hentries hst] at hperm hnone
    rw [← hcapacity hst] at hholds
    exact ⟨⟨rest, hperm, holds_of_related hentries hcapacity hsnd hholds⟩, hnone⟩
  clear := by
    rintro s ⟨t, hst, ht⟩
    rw [hcapacity hst]
    exact holds_of_related hentries hcapacity (hR.clear hst) (hlaw.clear ht)
  resize := by
    rintro s ⟨t, hst, ht⟩ n dropped s' hs'
    have hresize := hR.resize hst n
    rw [hs'] at hresize
    rcases ht' : Store.resize t n with cause | ⟨dropped', t'⟩
    · rw [ht'] at hresize
      exact hresize.elim
    · rw [ht'] at hresize
      obtain ⟨hfst, hsnd⟩ : Matches R (dropped, s') (dropped', t') := hresize
      cases hfst
      obtain ⟨rest, hperm, hholds⟩ := hlaw.resize ht n dropped t' ht'
      rw [hentries hst]
      exact ⟨rest, hperm, holds_of_related hentries hcapacity hsnd hholds⟩
  getAloud_eq := by
    rintro s ⟨t, hst, ht⟩ k
    have hsignals := hR.signals_get hst k
    rw [hlaw.getAloud_eq ht k] at hsignals
    refine congrArg (Aloud.mk _) (hsignals.trans ?_)
    exact congrArg (fun value => [Signal.access value.isSome]) (hR.get hst k).fst_eq.symm
  setSamples := by
    rintro s ⟨t, hst, ht⟩ n
    rw [hentries hst, hcapacity hst]
    exact holds_of_related hentries hcapacity (hR.setSamples hst n) (hlaw.setSamples ht n)

end Lawful

end Store

end BoundedCache
