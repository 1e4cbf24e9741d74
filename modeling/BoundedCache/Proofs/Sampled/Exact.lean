import BoundedCache.Proofs.Lru.Refinement
import BoundedCache.Proofs.Sampled.Order

/-!
# Sampling that covers the store

As long as every eviction inspects all entries, it drops the one unused the longest, and a sampled
store cannot be told from a recency store. Its entries in the order of their times are the list that
a recency store stands for.

## Main definitions

- `Sampled.StandsFor` — the list that a store stands for, with a generator that was not drawn from
- `Sampled.Covers` — the evictions of a request inspect all entries

## Main results

- `Sampled.StandsFor.perform` — a covered request does what it does to the list
- `Sampled.actAll_matches_lru` — a sampled store and a recency store side by side
-/

namespace BoundedCache

open Keyed Observed

namespace Sampled

variable {κ ν : Type} [DecidableEq κ] [Hashable κ] {c : Sampled κ ν} {m : Recency κ ν} {g : Random}
  {k : κ} {v : ν} {i n : Nat} {x : Stamped κ ν}

/-- The entries of a store in the order of their times are a list, and the generator is in a certain
state. -/
structure StandsFor (g : Random) (c : Sampled κ ν) (m : Recency κ ν) : Prop where
  valid : c.Valid
  random_eq : c.random = g
  capacity_eq : c.capacity = m.capacity
  exists_order : ∃ l, InOrder c l ∧ m.entries = l.map Stamped.entry

/-- The evictions of a request inspect all entries, and it does not ask for a capacity below the
number of samples. -/
def Covers (c : Sampled κ ν) (request : Request κ ν) : Prop :=
  ((Store.perform c request).1.evicted ≠ [] → c.size ≤ c.samples) ∧
    ∀ n, request = .resize n → c.samples ≤ n

theorem resize_eq (hn : 0 < n) (hsamples : c.samples ≤ n) :
    c.resize n = .ok ((evictMany Sampled.evict (c.size - n) c).1,
      { (evictMany Sampled.evict (c.size - n) c).2 with capacity := n }) :=
  resize_eq_ok_iff.2 ⟨hn, hsamples, rfl⟩

namespace StandsFor

/-! ## Reading -/

theorem entries_perm (h : StandsFor g c m) : m.entries.Perm c.entries := by
  obtain ⟨l, hl, hm⟩ := h.exists_order
  rw [hm]
  exact hl.entries_perm

theorem size_eq (h : StandsFor g c m) : c.size = m.entries.length := by
  rw [Sampled.size_eq, h.entries_perm.length_eq]

theorem lookup?_eq (h : StandsFor g c m) (k : κ) : lookup? k c.entries = lookup? k m.entries :=
  lookup?_perm h.valid.distinct h.entries_perm.symm k

theorem contains_eq (h : StandsFor g c m) (k : κ) : c.contains k = m.contains k := by
  rw [h.valid.contains_eq, h.lookup?_eq, Recency.contains_eq_lookup?]

theorem peek_eq (h : StandsFor g c m) (k : κ) : c.peek k = m.peek k := by
  rw [h.valid.peek_eq, h.lookup?_eq]
  rfl

theorem isFull_eq (h : StandsFor g c m) : c.isFull = m.isFull := by
  rw [isFull, Recency.isFull, h.size_eq, h.capacity_eq]

/-- The entry in a slot stands at one place of the list. -/
theorem split (h : StandsFor g c m) (hx : c.slots[i]? = some x) :
    ∃ as bs, InOrder c (as ++ x :: bs) ∧ m.peek x.entry.key = some x.entry.value ∧
      m.use x.entry.key = { m with entries := (as ++ bs ++ [x]).map Stamped.entry } ∧
      erase Entry.key x.entry.key m.entries = (as ++ bs).map Stamped.entry := by
  obtain ⟨l, hl, hm⟩ := h.exists_order
  obtain ⟨as, bs, rfl⟩ := hl.exists_split hx
  have hd : Distinct Entry.key m.entries := h.valid.distinct.perm h.entries_perm.symm
  rw [List.map_append, List.map_cons] at hm
  rw [hm] at hd
  have hfind : Keyed.find? Entry.key x.entry.key m.entries = some x.entry := by
    rw [hm, find?_append_cons hd]
  have herase : erase Entry.key x.entry.key m.entries = (as ++ bs).map Stamped.entry := by
    rw [hm, erase_append_cons hd, List.map_append]
  refine ⟨as, bs, hl, ?_, ?_, herase⟩
  · rw [Recency.peek, lookup?, hfind]
    rfl
  · rw [Recency.use, hfind, List.map_append, herase]
    rfl

/-! ## Operations -/

theorem get (h : StandsFor g c m) (k : κ) : Matches (StandsFor g) (c.get k) (m.get k) := by
  have hgets := h.valid.get k
  rcases h.valid.index_cases k with ⟨hi, hk⟩ | ⟨i, x, hi, hx, rfl, -⟩
  · have hout : k ∉ keys m.entries := mt (mem_keys_perm h.entries_perm).1 hk
    rw [Sampled.get_def, hi, Recency.get, Recency.use_of_not_mem hout]
    exact ⟨(lookup?_eq_none_iff.2 hout).symm, h⟩
  · obtain ⟨as, bs, hl, hpeek, huse, -⟩ := h.split hx
    have hvalid := hgets.holds.inv
    rw [Sampled.get_def, hi] at hvalid ⊢
    rw [Recency.get, hpeek, huse]
    refine ⟨?_, hvalid, h.random_eq, h.capacity_eq, _, hl.modify hx rfl, ?_⟩
    · exact congrArg (Option.map _) hx
    · simp

/-- An eviction that inspects all entries drops the head of the list. -/
theorem evict (h : StandsFor g c m) (hsize : c.size ≤ c.samples) :
    Matches (StandsFor g) c.evict m.evict := by
  obtain ⟨rest, -, hholds⟩ := h.valid.evict.exists_rest
  obtain ⟨l, hl, hm⟩ := h.exists_order
  cases l with
  | nil =>
    rw [hl.evict_nil hsize, Recency.evict, hm]
    refine ⟨rfl, h.valid, h.random_eq, h.capacity_eq, [], hl, rfl⟩
  | cons x l =>
    obtain ⟨i, hx, hevict⟩ := hl.evict_cons hsize
    obtain ⟨hfst, -, -, hcapacity⟩ := removeAt_spec h.valid.inverse hx
    have hfirst : InOrder c ([] ++ x :: l) := hl
    have hleft := hfirst.removeAt hx
    have hvalid := hholds.inv
    rw [hevict] at hvalid ⊢
    rw [Recency.evict, hm]
    refine ⟨hfst, hvalid, ?_, hcapacity.trans h.capacity_eq, l, hleft, rfl⟩
    rw [random_removeAt, h.random_eq]

theorem remove (h : StandsFor g c m) (k : κ) : Matches (StandsFor g) (c.remove k) (m.remove k) := by
  have hremoves := h.valid.remove k
  rcases h.valid.index_cases k with ⟨hi, hk⟩ | ⟨i, x, hi, hx, rfl, -⟩
  · have hout : k ∉ keys m.entries := mt (mem_keys_perm h.entries_perm).1 hk
    rw [Sampled.remove, hi, Recency.remove, erase_eq_self_of_not_mem hout]
    exact ⟨(lookup?_eq_none_iff.2 hout).symm, h⟩
  · obtain ⟨as, bs, hl, hpeek, -, herase⟩ := h.split hx
    obtain ⟨hfst, -, -, hcapacity⟩ := removeAt_spec h.valid.inverse hx
    have hvalid := hremoves.holds.inv
    rw [Sampled.remove, hi] at hvalid ⊢
    rw [Recency.remove, hpeek, herase]
    refine ⟨congrArg (Option.map Entry.value) hfst, hvalid, ?_, ?_, as ++ bs, hl.removeAt hx, rfl⟩
    · exact (random_removeAt c i).trans h.random_eq
    · exact hcapacity.trans h.capacity_eq

theorem makeRoom (h : StandsFor g c m) (hsize : c.isFull = true → c.size ≤ c.samples) :
    Matches (StandsFor g) c.makeRoom m.makeRoom := by
  rw [Sampled.makeRoom, Recency.makeRoom, ← h.isFull_eq]
  split
  · next hfull => exact h.evict (hsize hfull)
  · exact ⟨rfl, h⟩

theorem advance (h : StandsFor g c m) : StandsFor g c.advance m := by
  obtain ⟨l, hl, hm⟩ := h.exists_order
  exact ⟨h.valid.advance, h.random_eq, h.capacity_eq, l, hl.advance, hm⟩

theorem put (h : StandsFor g c m) (k : κ) (v : ν)
    (hsize : k ∉ keys c.entries → c.isFull = true → c.size ≤ c.samples) :
    Matches (StandsFor g) (c.put k v) (m.put k v) := by
  obtain ⟨_, -, hholds⟩ := (h.valid.put k v).exists_rest
  have hvalid := hholds.inv
  rcases h.valid.index_cases k with ⟨hi, hk⟩ | ⟨i, x, hi, hx, rfl, -⟩
  · have hnew : m.contains k = false := by
      have hout : k ∉ keys m.entries := mt (mem_keys_perm h.entries_perm).1 hk
      rw [Recency.contains_eq_lookup?, lookup?_eq_none_iff.2 hout]
      rfl
    obtain ⟨_, horder, -⟩ := h.exists_order
    have hticked := horder.ticked_advance.makeRoom
    obtain ⟨hfst, hroom⟩ := h.advance.makeRoom (hsize hk)
    obtain ⟨l, hl, hm⟩ := hroom.exists_order
    have hadvance : c.advance.index[k]? = none := hi
    rw [Sampled.put_def, hadvance] at hvalid ⊢
    rw [Recency.put, hnew]
    refine ⟨hfst, hvalid, hroom.random_eq, hroom.capacity_eq, _, hl.insertNew hticked k v, ?_⟩
    rw [List.map_append, ← hm]
    rfl
  · obtain ⟨as, bs, hl, hpeek, -, herase⟩ := h.split hx
    have hbound : m.contains x.entry.key = true := by
      rw [Recency.contains_eq_lookup?]
      exact congrArg Option.isSome hpeek
    have hadvance : c.advance.index[x.entry.key]? = some i := hi
    rw [Sampled.put_def, hadvance] at hvalid ⊢
    rw [Recency.put, if_pos hbound, herase]
    refine ⟨rfl, hvalid, h.random_eq, h.capacity_eq, _, hl.modify hx rfl, ?_⟩
    simp

theorem clear (h : StandsFor g c m) : StandsFor g c.clear m.clear where
  valid := h.valid.clear.inv
  random_eq := h.random_eq
  capacity_eq := h.capacity_eq
  exists_order := ⟨[], .clear c, rfl⟩

/-- A drain takes the entries in the order of the list, if the first eviction inspects them all. -/
theorem drain (h : StandsFor g c m) (hsize : c.size ≤ c.samples) :
    Matches (StandsFor g) (Store.drain c) (Store.drain m) := by
  let covered (c : Sampled κ ν) (m : Recency κ ν) : Prop := StandsFor g c m ∧ c.size ≤ c.samples
  have hevict : ∀ c m, covered c m → Matches covered c.evict m.evict := by
    rintro c m ⟨h, hsize⟩
    obtain ⟨hfst, hsnd⟩ := h.evict hsize
    refine ⟨hfst, hsnd, ?_⟩
    rw [samples_evict, hsnd.size_eq]
    have hless : m.evict.2.entries.length ≤ m.entries.length := (List.tail_sublist _).length_le
    exact hless.trans (h.size_eq ▸ hsize)
  obtain ⟨hfst, hsnd, -⟩ := evictMany_matches hevict ⟨h, hsize⟩ c.size
  have hlength : Store.size m = c.size := h.size_eq.symm
  rw [Store.drain_eq, Store.drain_eq, hlength]
  exact ⟨hfst, hsnd.clear⟩

/-- A capacity that is large enough changes nothing else. -/
theorem resize (h : StandsFor g c m) (hsamples : c.samples ≤ n) (hfits : c.size ≤ n) :
    c.resize n = .ok ([], { c with capacity := n }) ∧
      m.resize n = .ok ([], { m with capacity := n }) ∧
      StandsFor g { c with capacity := n } { m with capacity := n } := by
  have hn : 0 < n := Nat.lt_of_lt_of_le h.valid.samples_pos hsamples
  have hresize : c.resize n = .ok ([], { c with capacity := n }) := by
    rw [resize_eq hn hsamples, Nat.sub_eq_zero_of_le hfits]
    rfl
  obtain ⟨_, -, hholds⟩ := h.valid.resize hresize
  obtain ⟨l, hl, hm⟩ := h.exists_order
  refine ⟨hresize, ?_, hholds.inv, h.random_eq, rfl, l, hl.withCapacity n, hm⟩
  have hfits' : m.entries.length - n = 0 := Nat.sub_eq_zero_of_le (h.size_eq ▸ hfits)
  rw [Recency.resize, if_neg (Nat.ne_of_gt hn), Recency.shrink, hfits']
  rfl

/-- How many entries an eviction inspects is nothing to the list. -/
theorem setSamples (h : StandsFor g c m) (samples : Nat) :
    StandsFor g (Store.setSamples c samples) m := by
  rcases hd : c.setSamples samples with cause | d
  · rw [store_setSamples_of_error hd]
    exact h
  · rw [store_setSamples_of_ok hd]
    obtain ⟨l, hl, hm⟩ := h.exists_order
    have hvalid := (h.valid.setSamples hd).inv
    have horder := hl.setSamples hd
    obtain ⟨-, rfl⟩ := setSamples_eq_ok_iff.1 hd
    exact ⟨hvalid, h.random_eq, h.capacity_eq, l, horder, hm⟩

end StandsFor

/-! ## Covered requests -/

namespace Covers

/-- A store from which an eviction was to take something is covered. -/
theorem size_le_of_evict (hcovers : c.Covers .evict) (h : c.Valid) : c.size ≤ c.samples := by
  by_cases hnone : c.evict.1 = none
  · have hnil : c.entries = [] := h.evict.eq_none_iff.1 hnone
    simp [Sampled.size_eq, hnil]
  · refine hcovers.1 ?_
    obtain ⟨e, he⟩ := Option.ne_none_iff_exists'.1 hnone
    rw [Store.evicted_evict]
    show c.evict.1.toList ≠ []
    simp [he]

theorem size_le_of_drain (hcovers : c.Covers .drain) (h : c.Valid) : c.size ≤ c.samples := by
  by_cases hnil : c.entries = []
  · simp [Sampled.size_eq, hnil]
  · refine hcovers.1 fun hevicted => hnil ?_
    rw [Store.evicted_drain] at hevicted
    exact (hevicted ▸ (lawful.drain h).1 : c.entries.Perm []).eq_nil

theorem size_le_of_put (hcovers : c.Covers (.put k v)) (h : c.Valid) (hk : k ∉ keys c.entries)
    (hfull : c.isFull = true) : c.size ≤ c.samples := by
  refine hcovers.1 ?_
  have hsize : c.size = c.capacity := Nat.le_antisymm h.size_le (of_decide_eq_true hfull)
  have hsome : (c.put k v).1.isSome := (h.put k v).isSome_iff.2 ⟨lookup?_eq_none_iff.2 hk, hsize⟩
  obtain ⟨e, he⟩ := Option.isSome_iff_exists.1 hsome
  rw [Store.evicted_put]
  show (c.put k v).1.toList ≠ []
  simp [he]

/-- A covered change of the capacity leaves room for all entries. -/
theorem size_le_of_resize (hcovers : c.Covers (.resize n)) (h : c.Valid) :
    c.samples ≤ n ∧ c.size ≤ n := by
  have hsamples := hcovers.2 n rfl
  refine ⟨hsamples, ?_⟩
  by_contra hmany
  -- Then something would be evicted, but not before all entries were inspected.
  have hn : 0 < n := Nat.lt_of_lt_of_le h.samples_pos hsamples
  have hresize : Store.resize c n = _ := resize_eq hn hsamples
  have hevicted : (Store.perform c (.resize n)).1.evicted =
      (evictMany Sampled.evict (c.size - n) c).1 := by
    rw [Store.perform_resize, hresize, Outcome.evicted_evicting]
  obtain ⟨rest, hp, hholds, hsize⟩ := Store.evictMany_of_evicts (fun {c} _ => Sampled.size_eq c)
    (fun h => h.evict) h (c.size - n)
  have hsome : (evictMany Sampled.evict (c.size - n) c).1 ≠ [] := by
    intro hnil
    rw [hnil] at hp
    have hkept := (hp.trans hholds.perm.symm).length_eq
    have hleft : (evictMany Sampled.evict (c.size - n) c).2.size = c.size - (c.size - n) := hsize
    have hbefore : c.size = (Store.entries c).length := Sampled.size_eq c
    rw [← hbefore, ← lawful.size_eq hholds.inv] at hkept
    have hall : c.size = (evictMany Sampled.evict (c.size - n) c).2.size := hkept
    omega
  have hcovered := hcovers.1 (hevicted ▸ hsome)
  omega

end Covers

/-- A covered request does what it does to the list. -/
theorem StandsFor.perform (h : StandsFor g c m) (request : Request κ ν)
    (hcovers : c.Covers request) :
    Matches (StandsFor g) (Store.perform c request) (Store.perform m request) := by
  refine Store.perform_matches request ?_
  cases request with
  | put key value => exact h.put key value (hcovers.size_le_of_put h.valid)
  | get key =>
    have hget := h.get key
    exact ⟨hget, Store.signals_get_eq (h.valid.getAloud_eq key) rfl hget⟩
  | peek key => exact ⟨h, h.peek_eq key⟩
  | contains key => exact ⟨h, h.contains_eq key⟩
  | remove key => exact h.remove key
  | evict => exact h.evict (hcovers.size_le_of_evict h.valid)
  | clear => exact h.clear
  | drain => exact h.drain (hcovers.size_le_of_drain h.valid)
  | resize n =>
    obtain ⟨hsamples, hfits⟩ := hcovers.size_le_of_resize h.valid
    obtain ⟨hresize, hresize', hsnd⟩ := h.resize hsamples hfits
    have hdone : Store.resize c n = _ := hresize
    have hdone' := (m.store_resize_eq n).trans hresize'
    refine ⟨h, ?_⟩
    rw [hdone, hdone']
    exact ⟨rfl, hsnd⟩

/-! ## Full samples -/

theorem samples_makeRoom (c : Sampled κ ν) : c.makeRoom.2.samples = c.samples := by
  rw [makeRoom]
  split
  · exact samples_evict c
  · rfl

theorem samples_put (c : Sampled κ ν) (k : κ) (v : ν) : (c.put k v).2.samples = c.samples := by
  rw [put_def]
  split
  · rfl
  · exact samples_makeRoom c.advance

theorem samples_get (c : Sampled κ ν) (k : κ) : (c.get k).2.samples = c.samples := by
  rw [get_def]
  split <;> rfl

theorem samples_remove (c : Sampled κ ν) (k : κ) : (c.remove k).2.samples = c.samples := by
  rw [remove]
  split
  · rfl
  · exact samples_removeAt c _

theorem samples_drain (c : Sampled κ ν) : (Store.drain c).2.samples = c.samples := by
  have hevict : ∀ d : Sampled κ ν, d.samples = c.samples → d.evict.2.samples = c.samples :=
    fun d hd => (samples_evict d).trans hd
  rw [Store.drain_eq]
  exact evictMany_keeps hevict rfl c.size

/-- A store whose evictions inspect as many entries as fit. -/
structure Exhaustive (c : Sampled κ ν) : Prop where
  valid : c.Valid
  samples_eq : c.samples = c.capacity

namespace Exhaustive

variable {request : Request κ ν}

theorem covers (h : c.Exhaustive) (hrequest : ∀ n, request ≠ .resize n) : c.Covers request := by
  constructor
  · intro _
    rw [h.samples_eq]
    exact h.valid.size_le
  · intro n heq
    exact absurd heq (hrequest n)

theorem perform (h : c.Exhaustive) (hrequest : ∀ n, request ≠ .resize n) :
    Exhaustive (Store.perform c request).2 where
  valid := lawful.perform h.valid request
  samples_eq := by
    have hcapacity : (Store.perform c request).2.capacity = c.capacity :=
      lawful.capacity_perform h.valid hrequest
    rw [hcapacity, ← h.samples_eq]
    cases request with
    | put key value => exact samples_put c key value
    | get key => exact samples_get c key
    | peek key => rfl
    | contains key => rfl
    | remove key => exact samples_remove c key
    | evict => exact samples_evict c
    | clear => rfl
    | drain => exact samples_drain c
    | resize n => exact absurd rfl (hrequest n)

/-- Such a store covers every run that keeps its capacity and its number of samples. -/
theorem throughout {o : Observed (Sampled κ ν)} (h : o.store.Exhaustive)
    {actions : List (Observed.Action κ ν)} (hactions : ∀ n, .request (.resize n) ∉ actions)
    (hsamples : ∀ n, .setSamples n ∉ actions) : o.Throughout Covers actions := by
  induction actions generalizing o with
  | nil => trivial
  | cons action rest ih =>
    have hrest : ∀ n, .request (.resize n) ∉ rest :=
      fun n hmem => hactions n (List.mem_cons_of_mem _ hmem)
    have hrest' : ∀ n, .setSamples n ∉ rest :=
      fun n hmem => hsamples n (List.mem_cons_of_mem _ hmem)
    cases action with
    | request request =>
      have hrequest : ∀ n, request ≠ .resize n := by
        rintro n rfl
        exact hactions n List.mem_cons_self
      have hnext := h.perform hrequest
      rw [← store_perform] at hnext
      exact ⟨h.covers hrequest, ih hnext hrest hrest'⟩
    | listen listener => exact ih (o := o.listen listener) h hrest hrest'
    | setSamples samples => exact absurd List.mem_cons_self (hsamples samples)

end Exhaustive

/-! ## Side by side -/

/-- Two runs told and counted the same and left the same bindings, and nothing was drawn. -/
structure Agrees (g : Random) (run : List (Turn κ ν) × Observed (Sampled κ ν))
    (recency : List (Turn κ ν) × Observed (Lru κ ν)) : Prop where
  turns_eq : run.1 = recency.1
  tally_eq : run.2.tally = recency.2.tally
  entries_perm : run.2.store.entries.Perm recency.2.store.entries
  random_eq : run.2.store.random = g

/-- What agrees with the list agrees with the recency store, as long as requests are covered. -/
theorem agrees_of_throughout {s : Sampled κ ν} (h : StandsFor g s ⟨n, []⟩) (listener : Option Nat)
    {actions : List (Observed.Action κ ν)}
    (hcovers : Throughout Covers { store := s, listener } actions) :
    Agrees g (Observed.actAll { store := s, listener } actions)
      (Observed.actAll { store := (.empty n : Lru κ ν), listener } actions) := by
  have halike : Alike (StandsFor g) { store := s, listener }
      { store := (⟨n, []⟩ : Recency κ ν), listener } := ⟨h, rfl, rfl⟩
  have halike' : Alike Lru.StandsFor { store := (.empty n : Lru κ ν), listener }
      { store := (⟨n, []⟩ : Recency κ ν), listener } := ⟨Lru.empty_standsFor n, rfl, rfl⟩
  obtain ⟨hturns, hstore, htally, -⟩ := 
    actAll_matches_of StandsFor.perform StandsFor.setSamples halike actions hcovers
  obtain ⟨hturns', ⟨-, hview⟩, htally', -⟩ := actAll_matches Lru.simulation halike' actions
  refine ⟨hturns.trans hturns'.symm, htally.trans htally'.symm, ?_, hstore.random_eq⟩
  have hentries := congrArg Recency.entries hview
  exact hstore.entries_perm.symm.trans (.of_eq hentries.symm)

theorem create_eq (hn : Policy.fewestSamples ≤ n) (seed : UInt64) :
    (create n seed : Except SetupError (Sampled κ ν)) =
      .ok { capacity := n, random := .ofSeed seed } :=
  create_eq_ok_iff.2 ⟨hn, rfl⟩

theorem setSamples_eq (hfew : Policy.fewestSamples ≤ n) (hn : n ≤ c.capacity) :
    c.setSamples n = .ok { c with samples := n } := by
  rw [setSamples_eq_ok_iff, Nat.max_eq_left hfew]
  exact ⟨hn, rfl⟩

/-- However many samples a new store takes, it stands for the empty list. -/
theorem standsFor_setSamples {seed : UInt64} (hc : create n seed = .ok c) {samples : Nat}
    {s : Sampled κ ν} (hs : c.setSamples samples = .ok s) :
    StandsFor (.ofSeed seed) s ⟨n, []⟩ := by
  have hvalid := ((create_holds hc).inv.setSamples hs).inv
  have horder := (InOrder.create hc).setSamples hs
  obtain ⟨-, rfl⟩ := create_eq_ok_iff.1 hc
  obtain ⟨-, rfl⟩ := setSamples_eq_ok_iff.1 hs
  exact ⟨hvalid, rfl, rfl, [], horder, rfl⟩

/-- A sampled store whose evictions inspect as many entries as fit cannot be told from a recency
store of the same capacity, whatever is done with both as long as the capacity stays; and neither
can another one until an eviction leaves out some entry. Nothing is drawn that far. -/
theorem actAll_matches_lru (hn : Policy.fewestSamples ≤ n) (seed : UInt64)
    (listener : Option Nat) :
    ∃ c : Sampled κ ν, create n seed = .ok c ∧
      Lru.create n = .ok (.empty n : Lru κ ν) ∧
      c.setSamples Policy.fewestSamples = .ok c ∧
      c.setSamples n = .ok { c with samples := n } ∧
      ∀ samples s, c.setSamples samples = .ok s → ∀ actions : List (Observed.Action κ ν),
        let start : Observed (Sampled κ ν) := { store := s, listener }
        let recency : Observed (Lru κ ν) := { store := .empty n, listener }
        (start.Throughout Covers actions →
          Agrees (.ofSeed seed) (start.actAll actions) (recency.actAll actions)) ∧
        (s.samples = n → (∀ m, .request (.resize m) ∉ actions) →
          (∀ m, .setSamples m ∉ actions) →
          Agrees (.ofSeed seed) (start.actAll actions) (recency.actAll actions)) := by
  have hpos : 0 < n := Nat.lt_of_lt_of_le (by decide) hn
  have hc : create n seed = .ok ({ capacity := n, random := .ofSeed seed } : Sampled κ ν) :=
    create_eq hn seed
  refine ⟨_, hc, Lru.create_eq_ok_iff.2 ⟨hpos, rfl⟩, setSamples_eq (Nat.le_refl _) hn,
    setSamples_eq hn (Nat.le_refl n), ?_⟩
  intro samples s hs actions start recency
  have hstands := standsFor_setSamples hc hs
  constructor
  · intro hcovers
    exact agrees_of_throughout hstands listener hcovers
  · intro hsamples hactions hkept
    have hexhaustive : s.Exhaustive := ⟨hstands.valid, hsamples.trans hstands.capacity_eq.symm⟩
    exact agrees_of_throughout hstands listener (hexhaustive.throughout hactions hkept)

/-- Six keys are put into stores with room for five, and the first one is looked up before the last
is put: the second one gives way in both, and the listener is told. -/
theorem actAll_matches_lru_five :
    let actions : List (Observed.Action Nat Nat) :=
      [.request (.put 1 10), .request (.put 2 20), .request (.put 3 30), .request (.put 4 40),
        .request (.put 5 50), .request (.get 1), .request (.put 6 60)]
    ∃ c : Sampled Nat Nat, create 5 7 = .ok c ∧
      Agrees (.ofSeed 7) (Observed.actAll { store := c, listener := some 7 } actions)
        (Observed.actAll { store := (.empty 5 : Lru Nat Nat), listener := some 7 } actions) ∧
      (Observed.actAll { store := c, listener := some 7 } actions).1.flatMap Turn.notices =
        [⟨7, ⟨2, 20⟩⟩] := by
  intro actions
  obtain ⟨c, hc, -, hfew, -, hall⟩ :=
    actAll_matches_lru (κ := Nat) (ν := Nat) (n := 5) (by decide) 7 (some 7)
  obtain rfl := Except.ok.inj (hc.symm.trans (create_eq (by decide) 7))
  have hagrees := (hall _ _ hfew actions).2 rfl (by simp [actions]) (by simp [actions])
  refine ⟨_, hc, hagrees, ?_⟩
  rw [hagrees.turns_eq]
  cbv

end Sampled

end BoundedCache
