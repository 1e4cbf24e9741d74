import BoundedCache.Proofs.Segmented.Checked

/-!
# What gives way in a segmented store

The protected segment never makes up the whole capacity, so a full store has entries in probation,
and the oldest of them is the one that gives way. A protected entry is never the price of a new key,
and keys that are put once and not used again pass through probation alone.

## Main definitions

- `Segmented.Unbound` — each key is not bound when it is put
- `Segmented.Protects` — what a state offers as a victim, and what it spares

## Main results

- `Segmented.Valid.protects` — states in order spare their protected entries
- `Segmented.Valid.guarded_puts` — puts of new keys leave the protected segment as it is
- `Segmented.actAll_protects` — both, from every state that can be reached
-/

namespace BoundedCache.Segmented

open Keyed

variable {κ ν : Type} [DecidableEq κ] [Hashable κ] {c : Segmented κ ν} {k : κ} {ratio : Float}
  {l : List (Entry κ ν)}

/-- Each of the keys is not bound when it is put. -/
def Unbound (c : Segmented κ ν) : List (Entry κ ν) → Prop
  | [] => True
  | e :: l => c.contains e.key = false ∧ Unbound (c.put e.key e.value).2 l

/-- A full store offers the oldest entry in probation, of which there is one. That entry is what an
eviction takes, and what the put of any new key takes; the protected segment keeps all it has. -/
structure Protects (c : Segmented κ ν) : Prop where
  probation_ne_nil : c.isFull = true → c.probation.entries ≠ []
  victim?_isSome : c.victim?.isSome = c.isFull
  evict_victim : ∀ e, c.victim? = some e → ∃ rest, c.probation.entries = e :: rest ∧
    c.evict.1 = some e ∧ c.evict.2.probation.entries = rest ∧
    c.evict.2.guarded.entries = c.guarded.entries
  put_new : ∀ k v, c.contains k = false → ∃ rest,
    c.probation.entries = c.victim?.toList ++ rest ∧ (c.put k v).1 = c.victim? ∧
    (c.put k v).2.probation.entries = rest ++ [⟨k, v⟩] ∧
    (c.put k v).2.guarded.entries = c.guarded.entries
  put_spares : ∀ k v e, (c.put k v).1 = some e → c.isGuarded e.key = false
  put_keeps : ∀ k v key, c.isGuarded key = true → (c.put k v).2.contains key = true

namespace Valid

theorem size_eq_capacity (h : c.Valid ratio) (hfull : c.isFull = true) : c.size = c.capacity :=
  Nat.le_antisymm h.size_le (of_decide_eq_true hfull)

theorem not_mem_keys (h : c.Valid ratio) (hk : c.contains k = false) : k ∉ keys c.entries := by
  rw [h.contains_eq, Option.isSome_eq_false_iff, Option.isNone_iff_eq_none] at hk
  exact lookup?_eq_none_iff.1 hk

/-- The put of a new key takes the victim, and brings the new entry to the end of probation. -/
theorem put_unbound (h : c.Valid ratio) (hk : c.contains k = false) (v : ν) :
    ∃ rest, c.probation.entries = c.victim?.toList ++ rest ∧ (c.put k v).1 = c.victim? ∧
      (c.put k v).2.probation.entries = rest ++ [⟨k, v⟩] ∧
      (c.put k v).2.guarded.entries = c.guarded.entries := by
  by_cases hfull : c.isFull = true
  · obtain ⟨victim, rest, hrest, hvictim, hevict, hprobation, hguarded⟩ :=
      h.exists_victim (h.size_eq_capacity hfull)
    obtain ⟨hfst, -, hview⟩ := h.put_matches k v
    have hout : ¬ c.view.contains k = true := by
      rw [← h.contains_view_eq, hk]
      exact Bool.false_ne_true
    -- The lists evict from a full store, and so does the store.
    have hroom : c.view.makeRoom = c.view.evict := by
      rw [Tiers.makeRoom, ← h.isFull_eq, if_pos hfull]
    obtain ⟨hhead, -, hdropped⟩ := h.evict_matches
    rw [Tiers.put, if_neg hout, hroom] at hfst hview
    replace hview : (c.put k v).2.view = c.view.evict.2.insertNew k v := hview
    rw [← hdropped] at hview
    refine ⟨rest, ?_, ?_, ?_, ?_⟩
    · rw [hrest, hvictim]
      rfl
    · rw [hvictim]
      exact (hfst.trans hhead.symm).trans (congrArg Prod.fst hevict)
    · rw [← hprobation]
      exact congrArg Tiers.probation hview
    · rw [← hguarded]
      exact congrArg Tiers.guarded hview
  · have hnone : c.victim? = none := if_neg hfull
    have hopen : c.size < c.capacity := by simpa [isFull] using hfull
    obtain ⟨hfst, hprobation, hguarded⟩ := h.put_entries (h.not_mem_keys hk) hopen v
    rw [hnone]
    exact ⟨c.probation.entries, rfl, hfst, hprobation, hguarded⟩

/-- What a put displaces was in probation. -/
theorem mem_probation_of_put (h : c.Valid ratio) {v : ν} {e : Entry κ ν}
    (he : (c.put k v).1 = some e) : e ∈ c.probation.entries := by
  have hk : c.contains k = false := by
    obtain ⟨hnone, -⟩ := (h.put k v).isSome_iff.1 (Option.isSome_iff_exists.2 ⟨e, he⟩)
    rw [h.contains_eq]
    exact congrArg Option.isSome hnone
  obtain ⟨rest, hrest, hvictim, -⟩ := h.put_unbound hk v
  rw [hrest, ← hvictim, he]
  exact List.mem_cons_self

theorem put_spares (h : c.Valid ratio) {v : ν} {e : Entry κ ν} (he : (c.put k v).1 = some e) :
    c.isGuarded e.key = false := by
  have hmem : e.key ∈ keys c.probation.entries :=
    List.mem_map_of_mem (h.mem_probation_of_put he)
  rw [Bool.eq_false_iff, isGuarded, Ne, h.fits.joined.right.contains_iff]
  intro hguarded
  exact h.fits.joined.disjoint hmem hguarded

/-- A protected key is still bound after a put. -/
theorem put_keeps (h : c.Valid ratio) {key : κ} (hkey : c.isGuarded key = true) (v : ν) :
    (c.put k v).2.contains key = true := by
  obtain ⟨rest, hp, hrest⟩ := (h.put k v).exists_rest
  have hbound : key ∈ keys c.entries :=
    mem_keys_append.2 (.inr ((h.fits.joined.right.contains_iff key).1 hkey))
  have hafter : key ∈ keys (c.put k v).2.entries := by
    refine (mem_keys_insert hrest.perm).2 ?_
    rcases mem_keys_append.1 ((mem_keys_perm hp).1 hbound) with hgone | hkept
    · obtain ⟨e, he, rfl⟩ := List.mem_map.1 hgone
      have hspared := h.put_spares (Option.mem_toList.1 he)
      rw [hkey] at hspared
      cases hspared
    · exact .inr hkept
  rw [hrest.inv.contains_eq, Option.isSome_iff_ne_none]
  exact lookup?_ne_none_iff.2 hafter

theorem protects (h : c.Valid ratio) : c.Protects where
  probation_ne_nil hfull := by
    obtain ⟨victim, rest, hrest, -⟩ := h.exists_victim (h.size_eq_capacity hfull)
    rw [hrest]
    exact List.cons_ne_nil victim rest
  victim?_isSome := by
    by_cases hfull : c.isFull = true
    · obtain ⟨victim, rest, -, hvictim, -⟩ := h.exists_victim (h.size_eq_capacity hfull)
      rw [hvictim, hfull]
      rfl
    · rw [victim?, if_neg hfull, Bool.eq_false_iff.2 hfull]
      rfl
  evict_victim := by
    intro e he
    have hfull : c.isFull = true := by
      by_contra hopen
      rw [victim?, if_neg hopen] at he
      cases he
    obtain ⟨victim, rest, hrest, hvictim, hevict, hprobation, hguarded⟩ :=
      h.exists_victim (h.size_eq_capacity hfull)
    rw [hvictim] at he
    cases he
    exact ⟨rest, hrest, congrArg Prod.fst hevict, hprobation, hguarded⟩
  put_new k v hk := h.put_unbound hk v
  put_spares k v e he := h.put_spares he
  put_keeps k v key hkey := h.put_keeps hkey v

end Valid

/-- Puts of new keys, however many, leave the protected segment as it is. -/
theorem Valid.guarded_puts {o : Observed (Segmented κ ν)} (h : o.store.Valid ratio)
    (hl : o.store.Unbound l) :
    (o.actAll (Observed.puts l)).2.store.guarded.entries = o.store.guarded.entries := by
  induction l generalizing o with
  | nil => rfl
  | cons e l ih =>
    obtain ⟨hk, hrest⟩ := hl
    obtain ⟨rest, -, -, -, hguarded⟩ := h.put_unbound hk e.value
    have hnext := (lawful ratio).act h (.request (.put e.key e.value))
    have hstore := o.store_perform_put e.key e.value
    refine (ih hnext (hstore ▸ hrest)).trans ?_
    exact (congrArg (·.guarded.entries) hstore).trans hguarded

/-- Whatever was done with a new store, if it is full it offers the oldest entry in probation, which
is what gives way. No put takes a protected entry, and a run of puts of keys that are not bound, of
any length, leaves the protected segment with the same entries in the same order. -/
theorem actAll_protects {n : Nat} (hc : create n ratio = .ok c) (listener : Option Nat)
    (actions : List (Observed.Action κ ν)) :
    let o := (Observed.actAll { store := c, listener } actions).2
    o.store.Protects ∧
      ∀ l, Unbound o.store l →
        (o.actAll (Observed.puts l)).2.store.guarded.entries = o.store.guarded.entries := by
  intro o
  let start : Observed (Segmented κ ν) := { store := c, listener }
  have h : o.store.Valid ratio := 
    (lawful ratio).actAll (o := start) (create_holds hc).inv actions
  exact ⟨h.protects, fun l hl => h.guarded_puts hl⟩

/-- A key is protected and another one fills the store: two more keys pass through probation. -/
theorem actAll_protects_two :
    ∃ c : Segmented Nat Nat, create 2 0.8 = .ok c ∧
      let o := (Observed.actAll { store := c, listener := some 7 }
        [.request (.put 1 10), .request (.get 1), .request (.put 2 20)]).2
      o.store.isFull = true ∧ o.store.probation.entries ≠ [] ∧
        (o.actAll (Observed.puts [⟨3, 30⟩, ⟨4, 40⟩])).2.store.guarded.entries = [⟨1, 10⟩] := by
  have hratio : (0 : Float) < 0.8 ∧ (0.8 : Float) < 1 := by decide +kernel
  have hsplit : (Split.ofRatio 2 0.8).guarded = 1 := by decide +kernel
  have hc := create_eq_ok (κ := Nat) (ν := Nat) (n := 2) hratio (by decide) (by rw [hsplit]; decide)
  rw [hsplit] at hc
  -- The sizes of the segments are known now, and the ratio plays no part in what follows.
  generalize (0.8 : Float) = ratio at hc ⊢
  obtain ⟨hprotects, hputs⟩ := actAll_protects hc (some 7)
    [.request (.put 1 10), .request (.get 1), .request (.put 2 20)]
  refine ⟨_, hc, by cbv, hprotects.probation_ne_nil (by cbv), ?_⟩
  refine (hputs [⟨3, 30⟩, ⟨4, 40⟩] ⟨by cbv, by cbv, trivial⟩).trans ?_
  cbv

end BoundedCache.Segmented
