import BoundedCache.Proofs.Lru.Lawful
import BoundedCache.Proofs.Store.LastUse

/-!
# Recency stores refine plain lists

From a new store on, whatever is done with it, everything told is what the plain list of entries
tells. The list is ordered by the last use of each key, so the entry that gives way is the one whose
last use lies furthest back; and the index and the chain of the store stay in agreement.

## Main definitions

- `Recency.dropped` — the entries that a request drops from the list
- `Lru.OneToOne` — every key has one slot, and every slot in use belongs to one key

## Main results

- `Recency.byLastUse_perform` — one request keeps the list in order
- `Recency.evicted_perform`, `Recency.dropped_isPrefix` — what a request evicts is the front of the
  list
- `Lru.actAll_refines_recency` — a store tells what the plain list tells
-/

namespace BoundedCache

open Keyed Observed

/-! ## The order of the list -/

namespace Recency

variable {κ ν : Type} {m : Recency κ ν} {turns : List (Turn κ ν)} {turn : Turn κ ν}

theorem evictMany_eq (n : Nat) (m : Recency κ ν) :
    evictMany evict n m = (m.entries.take n, { m with entries := m.entries.drop n }) := by
  let holds (d : Recency κ ν) (l : List (Entry κ ν)) : Prop := d = { m with entries := l }
  have hevict : ∀ d l, holds d l → Matches holds d.evict (dropHead l) := by
    rintro d l rfl
    exact ⟨rfl, rfl⟩
  obtain ⟨hfst, hsnd⟩ := evictMany_eq_take hevict (s := m) rfl n
  exact Prod.ext hfst hsnd

/-- Making room takes at most the head off the list. -/
theorem toList_makeRoom (m : Recency κ ν) :
    m.makeRoom.1.toList ++ m.makeRoom.2.entries = m.entries := by
  rw [makeRoom]
  split
  · rw [evict]
    cases m.entries <;> rfl
  · rfl

variable [DecidableEq κ]

theorem drain_eq (m : Recency κ ν) : Store.drain m = (m.entries, m.clear) := by
  have hall : evictMany Store.evict (Store.size m) m = _ := evictMany_eq m.entries.length m
  rw [Store.drain_eq, hall, List.take_length]
  rfl

theorem perform_resize (m : Recency κ ν) (n : Nat) :
    Store.perform m (.resize n) =
      if n = 0 then ({ reply := .refused .zeroCapacity }, m)
      else (.evicting .done (m.shrink n).1, (m.shrink n).2) :=
  Store.perform_resize_of (m.store_resize_eq n)

/-- The entries that a request drops: the oldest one to make room for a new key, or to evict it, all
of them to drain the list, and the oldest ones that a smaller capacity has no room for. -/
def dropped (m : Recency κ ν) : Request κ ν → List (Entry κ ν)
  | .put key _ => if m.isFull && !m.contains key then m.entries.take 1 else []
  | .evict => m.entries.take 1
  | .drain => m.entries
  | .resize n => if n = 0 then [] else m.entries.take (m.entries.length - n)
  | .get _ | .peek _ | .contains _ | .remove _ | .clear => []

/-- What a request evicts is what it drops. -/
theorem evicted_perform (m : Recency κ ν) (request : Request κ ν) :
    (Store.perform m request).1.evicted = m.dropped request := by
  cases request with
  | put key value =>
    rw [Store.evicted_put, dropped]
    show (m.put key value).1.toList = _
    rw [put]
    cases m.contains key with
    | true => simp
    | false => cases hfull : m.isFull <;> simp [makeRoom, hfull, evict, List.take_one]
  | get key => rfl
  | peek key => rfl
  | contains key => rfl
  | remove key => rfl
  | evict =>
    rw [Store.evicted_evict]
    exact List.take_one.symm
  | clear => rfl
  | drain => rw [Store.evicted_drain, drain_eq, dropped]
  | resize n =>
    rw [perform_resize, dropped]
    split
    · rfl
    · rw [Outcome.evicted_evicting, shrink]

/-- What a request drops is the front of the list. -/
theorem dropped_isPrefix (m : Recency κ ν) (request : Request κ ν) :
    m.dropped request <+: m.entries := by
  cases request with
  | put key value =>
    rw [dropped]
    split
    · exact List.take_prefix ..
    · exact List.nil_prefix
  | evict => exact List.take_prefix ..
  | drain => exact List.prefix_refl _
  | resize n =>
    rw [dropped]
    split
    · exact List.nil_prefix
    · exact List.take_prefix ..
  | _ => exact List.nil_prefix

/-- One request keeps the list in the order of the last uses. -/
theorem byLastUse_perform (h : ByLastUse turns m.entries)
    (hreply : turn.reply = (Store.perform m turn.request).1.reply) :
    ByLastUse (turns ++ [turn]) (Store.perform m turn.request).2.entries := by
  obtain ⟨request, reply, reported, notices⟩ := turn
  cases request with
  | put key value =>
    show ByLastUse _ (m.put key value).2.entries
    have hself : (key = key : Bool) = true := decide_eq_true rfl
    rw [put]
    split
    · refine h.use erase_sublist hself fun e he => ?_
      exact decide_eq_false (mem_erase_iff.1 he).2.symm
    · next hk =>
      have hnone : find? Entry.key key m.entries = none :=
        contains_eq_false_iff.1 (Bool.eq_false_iff.2 hk)
      have hsub : m.makeRoom.2.entries.Sublist m.entries :=
        m.toList_makeRoom ▸ List.sublist_append_right ..
      refine h.use hsub hself fun e he => ?_
      exact decide_eq_false (find?_eq_none_iff.1 hnone e (hsub.subset he)).symm
  | get key =>
    have hvalue : reply = .value (m.peek key) := hreply
    subst hvalue
    show ByLastUse _ (m.use key).entries
    rw [Recency.use]
    split
    · next hnone =>
      refine h.keep (.refl _) fun e he => ?_
      rw [Turn.uses]
      simp [find?_eq_none_iff.1 hnone e he, Ne.symm]
    · next e he =>
      obtain ⟨-, rfl⟩ := mem_of_find?_eq_some he
      refine h.use erase_sublist ?_ fun e' he' => ?_
      · simp [Turn.uses, Turn.isHit, Request.isHit, peek, lookup?, he]
      · have hne := (mem_erase_iff.1 he').2
        simp [Turn.uses, hne.symm]
  | peek key => exact h.keep (.refl _) fun _ _ => rfl
  | contains key => exact h.keep (.refl _) fun _ _ => rfl
  | remove key => exact h.keep erase_sublist fun _ _ => rfl
  | evict => exact h.keep (List.tail_sublist _) fun _ _ => rfl
  | clear => exact .nil _
  | drain =>
    show ByLastUse _ (Store.drain m).2.entries
    rw [drain_eq]
    exact .nil _
  | resize n =>
    rw [perform_resize]
    split
    · exact h.keep (.refl _) fun _ _ => rfl
    · exact h.keep (List.drop_sublist ..) fun _ _ => rfl

/-- Whatever is done, the list stays in the order of the last uses. -/
theorem byLastUse_actAll (o : Observed (Recency κ ν)) (h : ByLastUse turns o.store.entries)
    (actions : List (Observed.Action κ ν)) :
    ByLastUse (turns ++ (o.actAll actions).1) (o.actAll actions).2.store.entries :=
  actAll_keeps (P := fun turns m => ByLastUse turns m.entries)
    (fun h _ hreply _ => byLastUse_perform h hreply) (fun h _ => h) h actions

/-- Whatever a request evicts was used last before anything that it does not evict. -/
theorem lastUse_lt_of_evicted (h : ByLastUse turns m.entries) (request : Request κ ν)
    {e e' : Entry κ ν} (he : e ∈ (Store.perform m request).1.evicted) (he' : e' ∈ m.entries)
    (hkept : e' ∉ (Store.perform m request).1.evicted) :
    lastUse e.key turns < lastUse e'.key turns := by
  rw [evicted_perform] at he hkept
  obtain ⟨rest, hrest⟩ := m.dropped_isPrefix request
  rw [← hrest] at h he'
  exact h.lt_of_append he ((List.mem_append.1 he').resolve_left hkept)

end Recency

namespace Lru

variable {κ ν : Type} [DecidableEq κ] [Hashable κ] {c : Lru κ ν}

/-! ## The agreement of index and chain -/

/-- Every key has one slot, and every slot in use belongs to one key. -/
structure OneToOne (c : Lru κ ν) : Prop where
  index_iff : ∀ k i, c.index[k]? = some i ↔ ∃ v, (i, ⟨k, v⟩) ∈ c.chain.toSlots
  get?_iff : ∀ i e, c.chain.get? i = some e ↔ (i, e) ∈ c.chain.toSlots
  slots_distinct : Distinct Prod.fst c.chain.toSlots
  keys_distinct : Distinct (Chain.valueKey Entry.key) c.chain.toSlots
  size_eq : c.index.size = c.chain.size

theorem WellFormed.oneToOne (h : c.WellFormed) : c.OneToOne := by
  obtain ⟨l, hl⟩ := h
  have hslots := hl.represents.toSlots_eq
  have hindex : ∀ k i, c.index[k]? = some i ↔ ∃ v, (i, ⟨k, v⟩) ∈ l := by
    intro k i
    constructor
    · intro hi
      obtain ⟨xs, ⟨k', v⟩, ys, rfl, rfl⟩ := hl.exists_split hi
      exact ⟨v, by simp⟩
    · rintro ⟨v, hmem⟩
      obtain ⟨xs, ys, rfl⟩ := List.append_of_mem hmem
      exact hl.index_eq_some
  refine ⟨?_, ?_, ?_, ?_, ?_⟩
  · rw [hslots]
    exact hindex
  · intro i e
    rw [hslots]
    exact hl.represents.get?_eq_some_iff
  · rw [hslots]
    exact hl.represents.distinct
  · rw [hslots]
    exact hl.distinct
  · have hperm : c.index.keys.Perm (l.map (Chain.valueKey Entry.key)) := by
      refine (List.perm_ext_iff_of_nodup Std.HashMap.nodup_keys hl.distinct).2 fun k => ?_
      rw [Std.HashMap.mem_keys, Std.HashMap.mem_iff_isSome_getElem?, Option.isSome_iff_exists,
        List.mem_map]
      constructor
      · rintro ⟨i, hi⟩
        obtain ⟨v, hmem⟩ := (hindex k i).1 hi
        exact ⟨(i, ⟨k, v⟩), hmem, rfl⟩
      · rintro ⟨⟨i, ⟨k', v⟩⟩, hmem, rfl⟩
        exact ⟨i, (hindex k' i).2 ⟨v, hmem⟩⟩
    rw [hl.represents.size_eq, ← Std.HashMap.length_keys, hperm.length_eq, List.length_map]

/-! ## Refinement -/

theorem empty_standsFor (n : Nat) : StandsFor (empty n : Lru κ ν) ⟨n, []⟩ := by
  have hempty : (empty n : Lru κ ν).chain.Indexed Entry.key (empty n : Lru κ ν).index [] := .empty
  exact ⟨empty_wellFormed n, view_eq hempty⟩

/-- From a new store on, whatever is done with it is answered, announced and counted as the plain
list does it, and both list the same entries. Of the next request the listener is told just what
the list drops in it. The entries stand in the order of their last uses, so that what a request
evicts was used last before anything that it leaves. Index and chain agree in every state. -/
theorem actAll_refines_recency {n : Nat} (hc : create n = .ok c) (listener : Option Nat)
    (actions : List (Observed.Action κ ν)) :
    let run := Observed.actAll { store := c, listener } actions
    let model := Observed.actAll { store := (⟨n, []⟩ : Recency κ ν), listener } actions
    let s := run.2.store
    let m := model.2.store
    run.1 = model.1 ∧ run.2.tally = model.2.tally ∧
      s.capacity = m.capacity ∧ s.size = m.entries.length ∧ s.entries = m.entries ∧
      s.oldest? = m.entries.head? ∧ s.newest? = m.entries.getLast? ∧
      Distinct Entry.key m.entries ∧ m.entries.length ≤ m.capacity ∧
      (∀ request, (run.2.turn request).reported = m.dropped request ∧
        run.2.Tells (m.dropped request) (run.2.turn request).notices) ∧
      ByLastUse run.1 m.entries ∧
      (∀ request, ∀ e ∈ (Store.perform s request).1.evicted, ∀ e' ∈ s.entries,
        e' ∉ (Store.perform s request).1.evicted →
          lastUse e.key run.1 < lastUse e'.key run.1) ∧
      s.OneToOne := by
  intro run model s m
  obtain ⟨hn, rfl⟩ := create_eq_ok_iff.1 hc
  have halike : Alike StandsFor { store := (empty n : Lru κ ν), listener }
      { store := (⟨n, []⟩ : Recency κ ν), listener } := ⟨empty_standsFor n, rfl, rfl⟩
  obtain ⟨hturns, ⟨hwf, hview⟩, htally, -⟩ := actAll_matches simulation halike actions
  have hvalid : m.Valid :=
    Recency.lawful.actAll (o := { store := ⟨n, []⟩, listener })
      ⟨List.nodup_nil, Nat.zero_le n, hn⟩ actions
  have horder : ByLastUse run.1 m.entries := by
    rw [hturns]
    exact Recency.byLastUse_actAll { store := ⟨n, []⟩, listener } (.nil []) actions
  have hentries : s.entries = m.entries := congrArg Recency.entries hview
  refine ⟨hturns, htally, congrArg Recency.capacity hview, ?_, hentries, ?_, ?_, hvalid.distinct,
    hvalid.length_le, ?_, horder, ?_, hwf.oneToOne⟩
  · rw [← hentries]
    exact hwf.size_eq
  · rw [← hentries]
    exact hwf.oldest?_eq
  · rw [← hentries]
    exact hwf.newest?_eq
  · intro request
    obtain ⟨houtcome, -⟩ := simulation.perform ⟨hwf, hview⟩ request
    have hreported : run.2.reported request = m.dropped request := by
      rw [reported, houtcome, Recency.evicted_perform]
    refine ⟨hreported, ?_⟩
    rw [← hreported]
    exact run.2.tells_perform request
  · intro request e he e' he' hkept
    obtain ⟨houtcome, -⟩ := simulation.perform ⟨hwf, hview⟩ request
    rw [houtcome] at he hkept
    exact Recency.lastUse_lt_of_evicted horder request he (hentries ▸ he') hkept

/-- Two keys, the first of them used again: the other one gives way to a third, and the first one to
an eviction, which is told to the listener named before it. -/
theorem actAll_refines_recency_two :
    let run := Observed.actAll { store := (empty 2 : Lru Nat Nat), listener := some 7 }
      [.request (.put 1 10), .request (.put 2 20), .request (.get 1), .request (.put 3 30),
        .listen 8]
    create 2 = .ok (empty 2 : Lru Nat Nat) ∧
      run.1 = [⟨.put 1 10, .entry none, [], []⟩, ⟨.put 2 20, .entry none, [], []⟩,
        ⟨.get 1, .value (some 10), [], []⟩,
        ⟨.put 3 30, .entry (some ⟨2, 20⟩), [⟨2, 20⟩], [⟨7, ⟨2, 20⟩⟩]⟩] ∧
      (run.2.turn .evict).notices = [⟨8, ⟨1, 10⟩⟩] := by
  intro run
  have hc : create 2 = .ok (empty 2 : Lru Nat Nat) := rfl
  obtain ⟨hturns, -, -, -, -, -, -, -, -, htells, -⟩ := actAll_refines_recency hc (some 7)
    [.request (.put 1 10), .request (.put 2 20), .request (.get 1), .request (.put 3 30), .listen 8]
  have hlistener : run.2.listener = some 8 := by rw [listener_actAll]; rfl
  exact ⟨hc, hturns.trans (by decide), ((htells .evict).2.of_some 8 hlistener).trans (by decide)⟩

end Lru

end BoundedCache
