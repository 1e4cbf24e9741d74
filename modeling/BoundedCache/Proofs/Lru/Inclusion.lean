import BoundedCache.Proofs.Lru.Refinement
import BoundedCache.Proofs.Store.Accounting

/-!
# More room never hurts recency

Two recency stores of different capacities, used in the same way from the start: the larger one has
every entry that the smaller one has, in the same order. So whatever is found in the smaller one is
found in the larger one, and nothing is gained by having less room. This needs more than the order
of the entries, as a new key displaces an entry in one of them and not in the other: it matters that
the smaller store has never dropped anything while it has room.

## Main definitions

- `Request.IsOrdinary` — the requests of a client that neither takes entries out nor changes sizes
- `Recency.Within` — the entries of one list are those of another, less some that gave way
- `Observed.Turn.WorseThan` — a turn in which less is found, and no less is evicted

## Main results

- `Recency.Within.perform` — one request, made of both lists
- `Recency.Within.actAll` — a sequence of requests
- `Lru.actAll_within` — recency stores of two capacities, side by side
-/

namespace BoundedCache

open Keyed Observed

/-- A client binds keys, reads them, or forgets everything. -/
def Request.IsOrdinary {κ ν : Type} : Request κ ν → Prop
  | .put _ _ | .get _ | .peek _ | .contains _ | .clear => True
  | .remove _ | .evict | .drain | .resize _ => False

/-! ## Turns of two stores -/

namespace Observed.Turn

variable {κ ν : Type} {turn turn' : Turn κ ν} {turns turns' : List (Turn κ ν)}

/-- Two turns with the same request: what is found in the first one is found in the second one, with
the same value, and no fewer entries give way. -/
structure WorseThan (turn turn' : Turn κ ν) : Prop where
  request_eq : turn.request = turn'.request
  value : ∀ v, turn.reply = .value (some v) → turn'.reply = .value (some v)
  found : turn.reply = .found true → turn'.reply = .found true
  reported_le : turn'.reported.length ≤ turn.reported.length

theorem isHit_iff :
    turn.isHit = true ↔ (∃ k, turn.request = .get k) ∧ ∃ v, turn.reply = .value (some v) := by
  obtain ⟨request, reply, reported, notices⟩ := turn
  show request.isHit reply = true ↔ (∃ k, request = .get k) ∧ ∃ v, reply = .value (some v)
  constructor
  · intro h
    cases request with
    | get key =>
      cases reply with
      | value value => exact ⟨⟨key, rfl⟩, (Option.isSome_iff_exists.1 h).imp fun _ => congrArg _⟩
      | _ => cases h
    | _ => cases h
  · rintro ⟨⟨k, rfl⟩, v, rfl⟩
    rfl

theorem WorseThan.isHit (h : turn.WorseThan turn') (hhit : turn.isHit = true) :
    turn'.isHit = true := by
  obtain ⟨⟨k, hk⟩, v, hv⟩ := isHit_iff.1 hhit
  exact isHit_iff.2 ⟨⟨k, h.request_eq ▸ hk⟩, v, h.value v hv⟩

theorem countP_isHit_le (h : List.Forall₂ WorseThan turns turns') :
    turns.countP isHit ≤ turns'.countP isHit := by
  induction h with
  | nil => exact Nat.le_refl _
  | @cons turn turn' turns turns' hturn _ ih =>
    rw [List.countP_cons, List.countP_cons]
    by_cases hhit : turn.isHit = true
    · rw [if_pos hhit, if_pos (hturn.isHit hhit)]
      exact Nat.succ_le_succ ih
    · rw [if_neg hhit]
      exact ih.trans (Nat.le_add_right ..)

theorem length_reported_le (h : List.Forall₂ WorseThan turns turns') :
    (turns'.flatMap reported).length ≤ (turns.flatMap reported).length := by
  induction h with
  | nil => exact Nat.le_refl _
  | cons hturn _ ih =>
    rw [List.flatMap_cons, List.flatMap_cons, List.length_append, List.length_append]
    exact Nat.add_le_add hturn.reported_le ih

end Observed.Turn

/-! ## Plain lists -/

namespace Recency

variable {κ ν : Type} {m n : Recency κ ν} {k : κ} {e : Entry κ ν} {l : List (Entry κ ν)}

/-- The entries of a list are some of those of another one that has at least as much room, in the
same order. They are all of them unless the first list is full. -/
structure Within (m n : Recency κ ν) : Prop where
  capacity_le : m.capacity ≤ n.capacity
  sublist : m.entries.Sublist n.entries
  eq_of_room : m.entries.length < m.capacity → m.entries = n.entries

namespace Within

theorem of_nil {a b : Nat} (hab : a ≤ b) : Within (⟨a, []⟩ : Recency κ ν) ⟨b, []⟩ :=
  ⟨hab, .refl _, fun _ => rfl⟩

theorem mem_keys (h : m.Within n) (hk : k ∈ keys m.entries) : k ∈ keys n.entries :=
  (h.sublist.map Entry.key).subset hk

/-- A key that is bound in the larger list only was dropped from the smaller one, which has been
full since. -/
theorem full_of_dropped (h : m.Within n) (hm : k ∉ keys m.entries) (hn : k ∈ keys n.entries) :
    m.capacity ≤ m.entries.length := by
  refine Nat.le_of_not_lt fun hroom => hm ?_
  rw [h.eq_of_room hroom]
  exact hn

/-- While the smaller list has room, so has the larger one. -/
theorem room_of_room (h : m.Within n) (hroom : m.entries.length < m.capacity) :
    n.entries.length < n.capacity := by
  rw [← h.eq_of_room hroom]
  exact hroom.trans_le h.capacity_le

/-- In a full list a new entry takes the place of the first one. -/
theorem displace (h : m.Within n) (hfull : m.capacity ≤ m.entries.length)
    (hl : m.entries.tail.Sublist l) (e : Entry κ ν) :
    Within { m with entries := m.entries.tail ++ [e] } { n with entries := l ++ [e] } where
  capacity_le := h.capacity_le
  sublist := hl.append_right _
  eq_of_room hroom := by
    have hlength : (m.entries.tail ++ [e]).length = m.entries.length - 1 + 1 := by
      rw [List.length_append, List.length_tail, List.length_singleton]
    have hlt : (m.entries.tail ++ [e]).length < m.capacity := hroom
    omega

variable [DecidableEq κ]

/-- What is bound in the smaller list is bound in the larger one, by the same entry. -/
theorem find?_eq_some (h : m.Within n) (hn : n.Valid)
    (he : find? Entry.key k m.entries = some e) : find? Entry.key k n.entries = some e := by
  obtain ⟨hmem, hkey⟩ := mem_of_find?_eq_some he
  exact (find?_eq_some_iff hn.distinct).2 ⟨h.sublist.subset hmem, hkey⟩

theorem peek_eq_some (h : m.Within n) (hn : n.Valid) {v : ν} (hv : m.peek k = some v) :
    n.peek k = some v := by
  obtain ⟨e, he, rfl⟩ := Option.map_eq_some_iff.1 hv
  exact congrArg (Option.map Entry.value) (h.find?_eq_some hn he)

theorem contains_eq_true (h : m.Within n) (hn : n.Valid) (hk : m.contains k = true) :
    n.contains k = true := by
  obtain ⟨e, he⟩ := Option.isSome_iff_exists.1 hk
  exact Option.isSome_iff_exists.2 ⟨e, h.find?_eq_some hn he⟩

/-- A key that both lists bind gets an entry at their ends. -/
theorem move (h : m.Within n) (hm : m.Valid) (hk : k ∈ keys m.entries) (e : Entry κ ν) :
    Within { m with entries := erase Entry.key k m.entries ++ [e] }
      { n with entries := erase Entry.key k n.entries ++ [e] } where
  capacity_le := h.capacity_le
  sublist := (h.sublist.filter _).append_right _
  eq_of_room hroom := by
    obtain ⟨w, hw⟩ := exists_lookup?_eq_some hk
    have hlength : (erase Entry.key k m.entries ++ [e]).length = m.entries.length := by
      rw [List.length_append]
      exact length_erase_of_lookup? hm.distinct hw
    have hlt : (erase Entry.key k m.entries ++ [e]).length < m.capacity := hroom
    rw [hlength] at hlt
    exact congrArg (erase Entry.key k · ++ [e]) (h.eq_of_room hlt)

theorem use (h : m.Within n) (hm : m.Valid) (hn : n.Valid) (k : κ) :
    (m.use k).Within (n.use k) := by
  by_cases hk : k ∈ keys m.entries
  · obtain ⟨v, hv⟩ := exists_lookup?_eq_some hk
    obtain ⟨e, he, -⟩ := Option.map_eq_some_iff.1 hv
    rw [Recency.use, Recency.use, he, h.find?_eq_some hn he]
    exact h.move hm hk e
  · rw [use_of_not_mem hk, Recency.use]
    split
    · exact h
    · next e he =>
      -- The smaller list dropped the key, and does not notice.
      have hmem : k ∈ keys n.entries := lookup?_ne_none_iff.1 (by rw [lookup?, he]; simp)
      have hfull := h.full_of_dropped hk hmem
      refine ⟨h.capacity_le, ?_, fun hroom => absurd hroom (Nat.not_lt.2 hfull)⟩
      rw [← erase_eq_self_of_not_mem hk]
      exact (h.sublist.filter _).trans (List.sublist_append_left ..)

theorem put (h : m.Within n) (hm : m.Valid) (k : κ) (v : ν) :
    (m.put k v).2.Within (n.put k v).2 ∧
      (n.put k v).1.toList.length ≤ (m.put k v).1.toList.length := by
  by_cases hk : k ∈ keys m.entries
  · rw [put_of_mem hk, put_of_mem (h.mem_keys hk)]
    exact ⟨h.move hm hk _, Nat.le_refl _⟩
  · by_cases hk' : k ∈ keys n.entries
    · have hfull := h.full_of_dropped hk hk'
      rw [put_of_full hk hfull, put_of_mem hk']
      refine ⟨h.displace hfull ?_ _, Nat.zero_le _⟩
      rw [← erase_eq_self_of_not_mem hk]
      exact (List.tail_sublist _).trans (h.sublist.filter _)
    · rcases Nat.lt_or_ge m.entries.length m.capacity with hroom | hfull
      · rw [put_of_room hk hroom, put_of_room hk' (h.room_of_room hroom), h.eq_of_room hroom]
        exact ⟨⟨h.capacity_le, .refl _, fun _ => rfl⟩, Nat.le_refl _⟩
      · rw [put_of_full hk hfull]
        rcases Nat.lt_or_ge n.entries.length n.capacity with hroom' | hfull'
        · rw [put_of_room hk' hroom']
          refine ⟨h.displace hfull ?_ _, Nat.zero_le _⟩
          exact (List.tail_sublist _).trans h.sublist
        · rw [put_of_full hk' hfull']
          refine ⟨h.displace hfull h.sublist.tail _, ?_⟩
          obtain ⟨e, l, hl⟩ := List.exists_cons_of_length_pos (hm.capacity_pos.trans_le hfull)
          rw [hl]
          exact Option.length_toList_le

/-- One request, made of both lists. -/
theorem perform {o p : Observed (Recency κ ν)} (h : o.store.Within p.store) (ho : o.store.Valid)
    (hp : p.store.Valid) {request : Request κ ν} (hrequest : request.IsOrdinary) :
    (o.turn request).WorseThan (p.turn request) ∧
      (o.perform request).2.store.Within (p.perform request).2.store := by
  cases request with
  | put key value =>
    obtain ⟨hwithin, hle⟩ := h.put ho key value
    rw [store_perform_put, store_perform_put]
    refine ⟨⟨rfl, nofun, nofun, ?_⟩, hwithin⟩
    show (Store.perform p.store _).1.evicted.length ≤ (Store.perform o.store _).1.evicted.length
    rw [Store.evicted_put, Store.evicted_put]
    exact hle
  | get key =>
    refine ⟨⟨rfl, fun v hv => ?_, nofun, Nat.le_refl _⟩, h.use ho hp key⟩
    have hpeek : o.store.peek key = some v := Reply.value.inj hv
    exact congrArg Reply.value (h.peek_eq_some hp hpeek)
  | peek key =>
    refine ⟨⟨rfl, fun v hv => ?_, nofun, Nat.le_refl _⟩, h⟩
    have hpeek : o.store.peek key = some v := Reply.value.inj hv
    exact congrArg Reply.value (h.peek_eq_some hp hpeek)
  | contains key =>
    refine ⟨⟨rfl, nofun, fun hfound => ?_, Nat.le_refl _⟩, h⟩
    have hcontains : o.store.contains key = true := Reply.found.inj hfound
    exact congrArg Reply.found (h.contains_eq_true hp hcontains)
  | clear => exact ⟨⟨rfl, nofun, nofun, Nat.le_refl _⟩, of_nil h.capacity_le⟩
  | _ => exact hrequest.elim

/-- From lists one of which is within the other, the same requests lead to such lists again. In
every turn, less is found in the smaller one, and no less is evicted. -/
theorem actAll {o p : Observed (Recency κ ν)} (h : o.store.Within p.store) (ho : o.store.Valid)
    (hp : p.store.Valid) {actions : List (Observed.Action κ ν)}
    (hactions : ∀ request, .request request ∈ actions → request.IsOrdinary) :
    List.Forall₂ Turn.WorseThan (o.actAll actions).1 (p.actAll actions).1 ∧
      (o.actAll actions).2.store.Within (p.actAll actions).2.store := by
  induction actions generalizing o p with
  | nil => exact ⟨.nil, h⟩
  | cons action rest ih =>
    rw [actAll_cons, actAll_cons]
    have hrest : ∀ request, .request request ∈ rest → request.IsOrdinary :=
      fun request hmem => hactions request (List.mem_cons_of_mem _ hmem)
    cases action with
    | request request =>
      obtain ⟨hturn, hnext⟩ := h.perform ho hp (hactions request List.mem_cons_self)
      have ho' : (o.perform request).2.store.Valid := lawful.act ho (.request request)
      have hp' : (p.perform request).2.store.Valid := lawful.act hp (.request request)
      obtain ⟨hturns, hlast⟩ := ih hnext ho' hp' hrest
      exact ⟨.cons hturn hturns, hlast⟩
    | listen listener => exact ih (o := o.listen listener) (p := p.listen listener) h ho hp hrest
    | setSamples samples =>
      exact ih (o := (o.act (.setSamples samples)).2) (p := (p.act (.setSamples samples)).2) h ho hp
        hrest

end Within

end Recency

/-! ## Recency stores -/

namespace Lru

variable {κ ν : Type} [DecidableEq κ] [Hashable κ]

/-- Whoever listens, a new store acts like the list without entries. -/
theorem actAll_empty_matches (n : Nat) (listener : Option Nat)
    (actions : List (Observed.Action κ ν)) :
    Matches (Alike StandsFor)
      (Observed.actAll { store := (empty n : Lru κ ν), listener } actions)
      (Observed.actAll { store := (⟨n, []⟩ : Recency κ ν), listener } actions) :=
  actAll_matches simulation ⟨empty_standsFor n, rfl, rfl⟩ actions

/-- Two new stores, the second one with at least as much room as the first, are bound, read and
cleared in the same way. At every moment the entries of the smaller store are among those of the
larger one, in the same order. In every turn, what is found in the smaller one is found in the
larger one, with the same value, and the larger one reports no more evictions. So the larger one
never counts fewer hits, nor more evictions. -/
theorem actAll_within {a b : Nat} (ha : 0 < a) (hab : a ≤ b) :
    ∃ c d : Lru κ ν, create a = .ok c ∧ create b = .ok d ∧
      ∀ (listener listener' : Option Nat) (actions : List (Observed.Action κ ν)),
        (∀ request, .request request ∈ actions → request.IsOrdinary) →
        let small := Observed.actAll { store := c, listener } actions
        let large := Observed.actAll { store := d, listener := listener' } actions
        small.2.store.entries.Sublist large.2.store.entries ∧
          List.Forall₂ Turn.WorseThan small.1 large.1 ∧
          small.2.tally.hits ≤ large.2.tally.hits ∧
          large.2.tally.evictions ≤ small.2.tally.evictions := by
  have hb : 0 < b := ha.trans_le hab
  refine ⟨empty a, empty b, create_eq_ok_iff.2 ⟨ha, rfl⟩, create_eq_ok_iff.2 ⟨hb, rfl⟩, ?_⟩
  intro listener listener' actions hactions small large
  obtain ⟨hturns, ⟨-, hview⟩, -⟩ := actAll_empty_matches a listener actions
  obtain ⟨hturns', ⟨-, hview'⟩, -⟩ := actAll_empty_matches b listener' actions
  obtain ⟨hworse, hwithin⟩ := Recency.Within.actAll
    (o := { store := (⟨a, []⟩ : Recency κ ν), listener })
    (p := { store := (⟨b, []⟩ : Recency κ ν), listener := listener' })
    (.of_nil hab) ⟨List.nodup_nil, Nat.zero_le a, ha⟩ ⟨List.nodup_nil, Nat.zero_le b, hb⟩ hactions
  rw [← hturns, ← hturns'] at hworse
  rw [← hview, ← hview'] at hwithin
  let start : Observed (Lru κ ν) := { store := empty a, listener }
  let start' : Observed (Lru κ ν) := { store := empty b, listener := listener' }
  have hcounts : CountsAll {} small.1 small.2.tally :=
    actAll_counts (o := start) lawful (empty_valid ha) actions
  have hcounts' : CountsAll {} large.1 large.2.tally :=
    actAll_counts (o := start') lawful (empty_valid hb) actions
  refine ⟨hwithin.sublist, hworse, ?_, ?_⟩
  · rw [hcounts.hits_eq, hcounts'.hits_eq]
    exact Nat.add_le_add_left (Turn.countP_isHit_le hworse) _
  · rw [hcounts.evictions_eq, hcounts'.evictions_eq]
    exact Nat.add_le_add_left (Turn.length_reported_le hworse) _

/-- A third key displaces the first one in the smaller store only, where it is missed later. -/
theorem actAll_within_two_three :
    ∃ c d : Lru Nat Nat, create 2 = .ok c ∧ create 3 = .ok d ∧
      let actions : List (Observed.Action Nat Nat) :=
        [.request (.put 1 10), .request (.put 2 20), .request (.put 3 30), .request (.get 1)]
      let small := Observed.actAll { store := c } actions
      let large := Observed.actAll { store := d } actions
      small.2.store.entries.Sublist large.2.store.entries ∧
        small.2.store.entries = [⟨2, 20⟩, ⟨3, 30⟩] ∧
        large.2.store.entries = [⟨2, 20⟩, ⟨3, 30⟩, ⟨1, 10⟩] := by
  obtain ⟨c, d, hc, hd, hwithin⟩ :=
    actAll_within (κ := Nat) (ν := Nat) (a := 2) (b := 3) (by decide) (by decide)
  obtain ⟨hsublist, -⟩ := hwithin none none
    [.request (.put 1 10), .request (.put 2 20), .request (.put 3 30), .request (.get 1)]
    (by simp [Request.IsOrdinary])
  obtain ⟨-, rfl⟩ := create_eq_ok_iff.1 hc
  obtain ⟨-, rfl⟩ := create_eq_ok_iff.1 hd
  exact ⟨_, _, hc, hd, hsublist, by cbv, by cbv⟩

end Lru

end BoundedCache
