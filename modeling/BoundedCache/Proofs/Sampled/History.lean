import BoundedCache.Proofs.Sampled.Victim
import BoundedCache.Proofs.Store.LastUse
import Mathlib.Data.List.Pairwise
import Mathlib.Data.List.Permutation

/-!
# The age of sampled entries

Whatever is done with a sampled store, and however many samples it is told to take, the index leads
to the slot of every key, and the times of the entries tell in which order their keys were used
last. So the stalest of the entries that an eviction inspects is the one whose key was used first of
all.

## Main definitions

- `Sampled.Sheds` — some entries are gone, and the others carry the times that they had
- `Sampled.Aged` — the times of a store agree with its history
- `Sampled.Dated` — what the index and the times of a store tell

## Main results

- `Sampled.Aged.perform` — a request keeps the times in agreement with the history
- `Sampled.Aged.actAll` — so does every run
- `Sampled.actAll_drops_stalest` — what is stored after any actions, and what gives way next
-/

namespace BoundedCache.Sampled

open Keyed Observed

variable {κ ν : Type} [DecidableEq κ] [Hashable κ] {c d : Sampled κ ν} {x y : Stamped κ ν}
  {i j n : Nat} {l l' : List (Stamped κ ν)} {turns : List (Turn κ ν)} {turn : Turn κ ν} {k : κ}

/-! ## Entries that go -/

/-- Some entries are gone, and the others carry the times that they had. -/
structure Sheds (c d : Sampled κ ν) : Prop where
  clock_eq : d.clock = c.clock
  subperm : d.slots.toList.Subperm c.slots.toList

namespace Sheds

theorem refl (c : Sampled κ ν) : Sheds c c := ⟨rfl, .refl _⟩

theorem trans {t : Sampled κ ν} (h : Sheds c d) (h' : Sheds d t) : Sheds c t :=
  ⟨h'.clock_eq.trans h.clock_eq, h'.subperm.trans h.subperm⟩

theorem removeAt (c : Sampled κ ν) (i : Nat) : Sheds c (c.removeAt i).2 := by
  refine ⟨clock_removeAt c i, ?_⟩
  cases hx : c.slots[i]? with
  | none => rw [Sampled.removeAt, hx]
  | some x =>
    have hsub := (List.sublist_cons_self x (c.removeAt i).2.slots.toList).subperm
    exact hsub.trans (slots_removeAt hx).symm.subperm

theorem evict (c : Sampled κ ν) : Sheds c c.evict.2 := by
  have hdrawn : Sheds c { c with random := c.candidates.2 } := ⟨rfl, .refl _⟩
  rw [Sampled.evict]
  dsimp only
  split
  · exact hdrawn
  · exact hdrawn.trans (removeAt _ _)

theorem makeRoom (c : Sampled κ ν) : Sheds c c.makeRoom.2 := by
  rw [Sampled.makeRoom]
  split
  · exact evict c
  · exact refl c

theorem evictMany (c : Sampled κ ν) (n : Nat) : Sheds c (evictMany Sampled.evict n c).2 :=
  evictMany_keeps (P := Sheds c) (fun d h => h.trans (evict d)) (refl c) n

/-- The entries that are left stay in order. -/
theorem inOrder (h : Sheds c d) (hl : InOrder c l) : ∃ l', l'.Sublist l ∧ InOrder d l' := by
  obtain ⟨l', hp, hsub⟩ := h.subperm.trans hl.perm.symm.subperm
  refine ⟨l', hsub, hp, hl.pairwise.sublist hsub, ?_⟩
  intro x hx
  rw [h.clock_eq]
  exact hl.le_clock x (hsub.subset hx)

end Sheds

/-! ## Times and turns -/

/-- The order of the entries by their times is the order in which their keys were used last, and the
clock has not moved on more often than there were turns. -/
structure Aged (turns : List (Turn κ ν)) (c : Sampled κ ν) : Prop where
  valid : c.Valid
  exists_order : ∃ l, InOrder c l ∧ ByLastUse turns (l.map Stamped.entry)
  clock_le : c.clock ≤ turns.length

namespace Aged

theorem orderly (h : Aged turns c) : c.Orderly := by
  obtain ⟨l, hl, -⟩ := h.exists_order
  exact ⟨h.valid, l, hl⟩

/-- Entries may go in a turn that uses no key. -/
theorem keep (h : Aged turns c) (hd : d.Valid) (hsheds : Sheds c d)
    (hturn : ∀ k, turn.uses k = false) : Aged (turns ++ [turn]) d := by
  obtain ⟨l, hl, huses⟩ := h.exists_order
  obtain ⟨l', hsub, hl'⟩ := hsheds.inOrder hl
  refine ⟨hd, ⟨l', hl', huses.keep (hsub.map _) fun e _ => hturn e.key⟩, ?_⟩
  rw [hsheds.clock_eq, List.length_append]
  exact Nat.le_trans h.clock_le (Nat.le_add_right ..)

/-- The entry whose key a turn uses comes to the end of the order, and others may go. -/
theorem use (huses : ByLastUse turns (l.map Stamped.entry)) (hsub : l'.Sublist l) (hd : d.Valid)
    (horder : InOrder d (l' ++ [x])) (hclock : d.clock ≤ turns.length + 1)
    (hturn : ∀ k, turn.uses k = true ↔ k = x.entry.key) : Aged (turns ++ [turn]) d := by
  refine ⟨hd, ⟨_, horder, ?_⟩, by simpa using hclock⟩
  rw [List.map_append, List.map_singleton]
  refine huses.use (hsub.map _) ((hturn _).2 rfl) fun e he => ?_
  -- No other entry has that key.
  have hdistinct := hd.distinct.perm horder.entries_perm.symm
  rw [List.map_append, distinct_append_iff] at hdistinct
  rw [Bool.eq_false_iff, Ne, hturn]
  exact hdistinct.2.2 e he x.entry (by simp)

theorem put (h : Aged turns c) (k : κ) (v : ν) (hturn : ∀ k', turn.uses k' = true ↔ k' = k) :
    Aged (turns ++ [turn]) (c.put k v).2 := by
  obtain ⟨l, hl, huses⟩ := h.exists_order
  obtain ⟨_, -, hholds⟩ := (h.valid.put k v).exists_rest
  have hd := hholds.inv
  have hclock : c.clock + 1 ≤ turns.length + 1 := Nat.succ_le_succ h.clock_le
  rcases h.valid.index_cases k with ⟨hi, -⟩ | ⟨i, x, hi, hx, rfl, -⟩
  · have hnew : c.advance.index[k]? = none := hi
    have hsheds := Sheds.makeRoom c.advance
    obtain ⟨l', hsub, hl'⟩ := hsheds.inOrder hl.advance
    rw [Sampled.put_def, hnew] at hd ⊢
    refine use huses hsub hd (hl'.insertNew hl.ticked_advance.makeRoom k v) ?_ hturn
    exact Nat.le_trans (Nat.le_of_eq hsheds.clock_eq) hclock
  · have hbound : c.advance.index[x.entry.key]? = some i := hi
    obtain ⟨as, bs, rfl⟩ := hl.exists_split hx
    rw [Sampled.put_def, hbound] at hd ⊢
    have hsub : (as ++ bs).Sublist (as ++ x :: bs) := .append_left (List.sublist_cons_self ..) as
    exact use huses hsub hd (hl.modify hx rfl) hclock hturn

/-- A lookup uses the key if it finds it, and does nothing otherwise. -/
theorem get (h : Aged turns c) (k : κ)
    (hturn : ∀ k', turn.uses k' = true ↔ k' = k ∧ (c.get k).1.isSome = true) :
    Aged (turns ++ [turn]) (c.get k).2 := by
  obtain ⟨l, hl, huses⟩ := h.exists_order
  have hd := (h.valid.get k).holds.inv
  rcases h.valid.index_cases k with ⟨hi, -⟩ | ⟨i, x, hi, hx, rfl, -⟩
  · rw [Sampled.get_def, hi] at hd hturn ⊢
    refine h.keep hd (.refl c) fun k' => ?_
    rw [Bool.eq_false_iff, Ne, hturn]
    simp
  · obtain ⟨as, bs, rfl⟩ := hl.exists_split hx
    have hadvance : c.advance.slots[i]? = some x := hx
    rw [Sampled.get_def, hi] at hd hturn ⊢
    have hsub : (as ++ bs).Sublist (as ++ x :: bs) := .append_left (List.sublist_cons_self ..) as
    refine use huses hsub hd (hl.modify hx rfl) (Nat.succ_le_succ h.clock_le) ?_
    simpa [hadvance] using hturn

theorem create {seed : UInt64} (hc : create n seed = .ok c) : Aged [] c := by
  refine ⟨(create_holds hc).inv, ⟨[], .create hc, .nil []⟩, ?_⟩
  obtain ⟨-, rfl⟩ := create_eq_ok_iff.1 hc
  exact Nat.le_refl 0

/-- Nothing is left of the times once all entries are gone. -/
theorem clear (turns : List (Turn κ ν)) (hd : c.clear.Valid) : Aged turns c.clear where
  valid := hd
  exists_order := ⟨[], .clear c, .nil turns⟩
  clock_le := Nat.zero_le _

/-- A request keeps the times in agreement with the history. -/
theorem perform (h : Aged turns c) (turn : Turn κ ν)
    (hreply : turn.reply = (Store.perform c turn.request).1.reply) :
    Aged (turns ++ [turn]) (Store.perform c turn.request).2 := by
  have hd := lawful.perform h.valid turn.request
  obtain ⟨request, reply, reported, notices⟩ := turn
  cases request with
  | put key value => exact h.put key value fun _ => decide_eq_true_iff.trans eq_comm
  | get key =>
    obtain rfl : reply = .value (c.get key).1 := hreply
    refine h.get key fun k => ?_
    simp only [Turn.uses, Turn.isHit, Request.isHit, Bool.and_eq_true, decide_eq_true_iff,
      eq_comm (a := key)]
  | peek key => exact h.keep hd (.refl c) fun _ => rfl
  | contains key => exact h.keep hd (.refl c) fun _ => rfl
  | remove key =>
    refine h.keep hd ?_ fun _ => rfl
    show Sheds c (c.remove key).2
    rw [remove]
    split
    · exact .refl c
    · exact .removeAt c _
  | evict => exact h.keep hd (.evict c) fun _ => rfl
  | clear => exact clear _ hd
  | drain => exact clear _ hd
  | resize n =>
    refine h.keep hd ?_ fun _ => rfl
    show Sheds c (Store.perform c (.resize n)).2
    rw [Store.perform_resize]
    rcases hresize : Store.resize c n with cause | ⟨dropped, t⟩
    · exact .refl c
    · obtain ⟨-, -, hd⟩ := resize_eq_ok_iff.1 hresize
      cases hd
      have hsheds := Sheds.evictMany c (c.size - n)
      exact ⟨hsheds.clock_eq, hsheds.subperm⟩

/-- Of two entries, the one whose key was used last in the earlier turn carries the earlier time. -/
theorem lastUse_lt_iff (h : Aged turns c) (hx : x ∈ c.slots) (hy : y ∈ c.slots) :
    x.lastUse < y.lastUse ↔ lastUse x.entry.key turns < lastUse y.entry.key turns := by
  obtain ⟨l, hl, huses⟩ := h.exists_order
  let agree (x y : Stamped κ ν) : Prop :=
    x.lastUse < y.lastUse ↔ lastUse x.entry.key turns < lastUse y.entry.key turns
  have hpairs : l.Pairwise fun x y => agree x y ∧ agree y x := by
    refine (hl.pairwise.and (List.pairwise_map.1 huses.pairwise)).imp fun {x y} hlt => ?_
    constructor <;> simp only [agree] <;> omega
  have hmem : ∀ {x}, x ∈ c.slots → x ∈ l := fun hx => hl.perm.mem_iff.2 (Array.mem_toList_iff.2 hx)
  have hself : ∀ x ∈ l, agree x x := fun x _ => by simp [agree]
  exact List.Pairwise.forall_of_forall_of_flip hself (hpairs.imp And.left) (hpairs.imp And.right)
    (hmem hx) (hmem hy)

/-- The keys of all entries were used in some turn. -/
theorem lastUse_pos (h : Aged turns c) (hx : x ∈ c.slots) : 0 < lastUse x.entry.key turns := by
  obtain ⟨l, hl, huses⟩ := h.exists_order
  have hmem : x ∈ l := hl.perm.mem_iff.2 (Array.mem_toList_iff.2 hx)
  exact huses.used x.entry (List.mem_map_of_mem hmem)

/-- The number of samples has no part in the times. -/
theorem setSamples (h : Aged turns c) {samples : Nat} (hd : c.setSamples samples = .ok d) :
    Aged turns d := by
  obtain ⟨l, hl, huses⟩ := h.exists_order
  refine ⟨(h.valid.setSamples hd).inv, ⟨l, hl.setSamples hd, huses⟩, ?_⟩
  obtain ⟨-, rfl⟩ := setSamples_eq_ok_iff.1 hd
  exact h.clock_le

theorem store_setSamples (h : Aged turns c) (samples : Nat) :
    Aged turns (Store.setSamples c samples) := by
  rcases hset : c.setSamples samples with cause | d
  · rw [store_setSamples_of_error hset]
    exact h
  · rw [store_setSamples_of_ok hset]
    exact h.setSamples hset

/-- Whatever is done, the times stay in agreement with the history. -/
theorem actAll {o : Observed (Sampled κ ν)} (h : Aged turns o.store)
    (actions : List (Observed.Action κ ν)) :
    Aged (turns ++ (o.actAll actions).1) (o.actAll actions).2.store :=
  actAll_keeps (P := Aged) (fun h turn hreply _ => h.perform turn hreply)
    (fun h samples => h.store_setSamples samples) h actions

end Aged

/-! ## What is stored, and what goes -/

/-- The index leads from each key to the slot that holds it, and to no other. No two slots hold the
same key or the same time, and the times are in the order in which the keys were used last. -/
structure Dated (turns : List (Turn κ ν)) (c : Sampled κ ν) : Prop where
  index_iff : ∀ (k : κ) (i : Nat),
    c.index[k]? = some i ↔ ∃ x, c.slots[i]? = some x ∧ x.entry.key = k
  slots_ne : ∀ (i j : Nat) (x y : Stamped κ ν), c.slots[i]? = some x → c.slots[j]? = some y →
    i ≠ j → x.entry.key ≠ y.entry.key ∧ x.lastUse ≠ y.lastUse
  le_clock : ∀ x ∈ c.slots, x.lastUse ≤ c.clock
  lt_iff : ∀ x ∈ c.slots, ∀ y ∈ c.slots,
    x.lastUse < y.lastUse ↔ lastUse x.entry.key turns < lastUse y.entry.key turns
  used : ∀ x ∈ c.slots, 0 < lastUse x.entry.key turns

theorem Aged.dated (h : Aged turns c) : Dated turns c where
  index_iff := h.valid.index_iff
  slots_ne i j x y hx hy hij := by
    obtain ⟨l, hl, -⟩ := h.exists_order
    refine ⟨fun hkey => hij ?_, hl.lastUse_ne hx hy hij⟩
    -- The index leads to both slots.
    have hi := (h.valid.index_iff _ i).2 ⟨x, hx, hkey⟩
    have hj := (h.valid.index_iff _ j).2 ⟨y, hy, rfl⟩
    exact Option.some.inj (hi.symm.trans hj)
  le_clock x hx := by
    obtain ⟨l, hl, -⟩ := h.exists_order
    exact hl.le_clock x (hl.perm.mem_iff.2 (Array.mem_toList_iff.2 hx))
  lt_iff _ hx _ hy := h.lastUse_lt_iff hx hy
  used _ hx := h.lastUse_pos hx

/-- Whatever was done with a new store, and however many samples it was told to take, the index
leads to every slot, the times tell the order of the last uses, and the number of samples is within
its bounds. An eviction from it inspects all entries without a draw, or as many draws as there are
samples, and drops the stalest; and the next request evicts in that way only. -/
theorem actAll_drops_stalest {seed : UInt64} (hc : create n seed = .ok c) (listener : Option Nat)
    (actions : List (Observed.Action κ ν)) :
    let run := Observed.actAll { store := c, listener } actions
    let s := run.2.store
    Dated run.1 s ∧ s.clock ≤ run.1.length ∧
      Policy.fewestSamples ≤ s.samples ∧ s.samples ≤ s.capacity ∧
      (s.size ≠ 0 → ∃ e d, Drops s e d) ∧
      ∀ request, ∃ d, DropsAll (s.ready request) (Store.perform s request).1.evicted d ∧
        (Store.perform s request).2.random = d.random := by
  intro run s
  let start : Observed (Sampled κ ν) := { store := c, listener }
  have h : Aged run.1 s := (Aged.create hc).actAll (o := start) actions
  refine ⟨h.dated, h.clock_le, h.valid.fewest_le, h.valid.samples_le, ?_, h.orderly.perform_drops⟩
  intro hsize
  rcases h.orderly.evict_cases with ⟨-, hzero⟩ | ⟨e, d, hdrops, -⟩
  · exact absurd hzero hsize
  · exact ⟨e, d, hdrops⟩

/-- In a full store of six the first key is looked up, and five places are drawn: the second key is
at one of them. -/
theorem actAll_drops_stalest_six :
    ∃ c : Sampled Nat Nat, create 6 7 = .ok c ∧
      let s := (Observed.actAll { store := c, listener := some 7 }
        [.request (.put 1 10), .request (.put 2 20), .setSamples 4,
          .request (.put 3 30), .request (.put 4 40), .request (.put 5 50),
          .request (.put 6 60), .request (.get 1)]).2.store
      s.samples < s.size ∧ ∃ d, Drops s ⟨2, 20⟩ d := by
  have hc : create 6 7 = .ok ({ capacity := 6, random := .ofSeed 7 } : Sampled Nat Nat) :=
    create_eq_ok_iff.2 ⟨by decide, rfl⟩
  obtain ⟨-, -, -, -, hevict, -⟩ := actAll_drops_stalest hc (some 7)
    [.request (.put 1 10), .request (.put 2 20), .setSamples 4,
      .request (.put 3 30), .request (.put 4 40), .request (.put 5 50),
      .request (.put 6 60), .request (.get 1)]
  obtain ⟨e, d, hdrops⟩ := hevict (by cbv)
  have hsecond : some e = some ⟨2, 20⟩ :=
    (congrArg Prod.fst hdrops.evict_eq).symm.trans (by cbv)
  obtain rfl : e = ⟨2, 20⟩ := Option.some.inj hsecond
  exact ⟨_, hc, by cbv, d, hdrops⟩

end BoundedCache.Sampled
