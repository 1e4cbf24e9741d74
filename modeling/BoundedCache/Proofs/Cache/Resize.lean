import BoundedCache.Proofs.Cache.Drain
import BoundedCache.Proofs.Segmented.Refinement

/-!
# A smaller capacity

A cache that has to shrink evicts until the rest fits, and changes nothing else: what stays would be
evicted afterwards in the same order as before. This is so although a segmented cache moves entries
from one segment to the other for that, and adaptive replacement cuts down its target, which settles
the order. It is not so behind an admission window, where entries of the window go to the main part.

## Main results

- `Cache.ValidFor.exists_order` — a resize takes entries from the front of the order of evictions
- `Cache.actAll_resize` — whatever was done before, a resize is a number of evictions
-/

namespace BoundedCache.Cache

variable {κ ν : Type} [DecidableEq κ] [Hashable κ] {c : Cache κ ν} {policy : Policy} {n : Nat}

/-- A resize drops what no longer fits from the front of the order, and leaves the rest of it. -/
theorem ValidFor.exists_order (h : c.ValidFor policy)
    (hpolicy : policy ∈ [Policy.lru, .lfu, .segmented, .adaptive]) :
    ∃ order, c.drainOrder? = some order ∧
      ∀ {n dropped d}, Store.resize c n = .ok (dropped, d) →
        dropped = order.take (Store.size c - n) ∧
          d.drainOrder? = some (order.drop (Store.size c - n)) := by
  cases policy with
  | lru =>
    obtain ⟨s, rfl, hs⟩ := h
    refine ⟨s.entries, rfl, fun hd => ?_⟩
    obtain ⟨t, ht, rfl⟩ := wraps_lru.exists_resize_eq hd
    obtain ⟨hdropped, hrest⟩ := hs.resize_entries ht
    exact ⟨hdropped, congrArg some hrest⟩
  | lfu =>
    obtain ⟨s, rfl, hs⟩ := h
    refine ⟨s.entries, rfl, fun hd => ?_⟩
    obtain ⟨t, ht, rfl⟩ := wraps_lfu.exists_resize_eq hd
    obtain ⟨hdropped, hrest⟩ := hs.resize_entries ht
    exact ⟨hdropped, congrArg some hrest⟩
  | segmented =>
    obtain ⟨s, rfl, ratio, hs⟩ := h
    refine ⟨s.entries, rfl, fun hd => ?_⟩
    obtain ⟨t, ht, rfl⟩ := wraps_segmented.exists_resize_eq hd
    obtain ⟨hdropped, hrest⟩ := hs.resize_entries ht
    exact ⟨hdropped, congrArg some hrest⟩
  | adaptive =>
    obtain ⟨s, rfl, hs⟩ := h
    refine ⟨s.drainOrder, rfl, fun hd => ?_⟩
    obtain ⟨t, ht, rfl⟩ := wraps_adaptive.exists_resize_eq hd
    obtain ⟨hdropped, hrest⟩ := hs.resize_drainOrder ht
    exact ⟨hdropped, congrArg some hrest⟩
  | tinyLfu => simp at hpolicy
  | sampled => simp at hpolicy

/-- Whatever was done with a new cache of one of four policies, there is an order in which evictions
take its entries. A resize that is accepted announces those at the front of the order that do not
fit any more, in that order, and no others. It leaves as many entries as there were or as fit, and
evictions take these in the order in which they would have gone without it. -/
theorem actAll_resize {recipe : Recipe κ} (hc : create n recipe = .ok c)
    (hpolicy : recipe.policy ∈ [Policy.lru, .lfu, .segmented, .adaptive]) (listener : Option Nat)
    (actions : List (Observed.Action κ ν)) :
    let o := (Observed.actAll { store := c, listener } actions).2
    ∃ order, Store.Drains o.store order ∧
      ∀ m,
        let excess := Store.size o.store - m
        let told := (o.perform (.resize m)).1
        let after := (o.perform (.resize m)).2
        told.1 = .done →
          told.2 = o.notices (order.take excess) ∧
            o.reported (.resize m) = order.take excess ∧
            Store.size after.store = min (Store.size o.store) m ∧
            Store.capacity after.store = m ∧
            Store.Drains after.store (order.drop excess) := by
  intro o
  let start : Observed (Cache κ ν) := { store := c, listener }
  have hvalid : o.store.ValidFor recipe.policy :=
    (lawful_for recipe.policy).actAll (o := start) (create_holds_for hc).inv actions
  obtain ⟨order, horder, hresize⟩ := hvalid.exists_order hpolicy
  obtain ⟨hdrains, -⟩ := Valid.drains ⟨_, hvalid⟩ horder
  refine ⟨order, hdrains, fun m => ?_⟩
  intro excess told after hdone
  rcases hd : Store.resize o.store m with cause | ⟨dropped, d⟩
  · have hrefused : told.1 = .refused cause := by
      show (o.perform (.resize m)).1.1 = _
      rw [Observed.perform_eq, Store.perform_resize, hd]
    rw [hdone] at hrefused
    cases hrefused
  obtain ⟨rfl, hrest⟩ := hresize hd
  obtain ⟨_, -, hholds⟩ := (lawful_for recipe.policy).resize hvalid m _ _ hd
  obtain ⟨hdrains', -⟩ := Valid.drains ⟨_, hholds.inv⟩ hrest
  have hperform : Store.perform o.store (.resize m) =
      (.evicting .done (order.take excess), d) := by
    rw [Store.perform_resize, hd]
  have hafter : after.store = d := (o.store_perform _).trans (congrArg Prod.snd hperform)
  have hreported : o.reported (.resize m) = order.take excess := by
    rw [Observed.reported, hperform, Outcome.evicted_evicting]
  have htold : told.2 = o.notices (order.take excess) := by
    rw [← hreported]
    exact o.notices_perform (.resize m)
  refine ⟨htold, hreported, ?_, ?_, ?_⟩
  · rw [hafter, ← hdrains'.length_eq, List.length_drop, hdrains.length_eq]
    omega
  · rw [hafter]
    exact hholds.capacity_eq
  · rw [hafter]
    exact hdrains'

/-- A key that was read again goes to the frequency part, and is not the one to give way. -/
theorem actAll_resize_read_again :
    ∃ c : Cache Nat Nat, create 3 .adaptive = .ok c ∧
      let o := (Observed.actAll { store := c, listener := some 7 }
        [.request (.put 1 10), .request (.put 2 20), .request (.put 3 30),
          .request (.get 1)]).2
      (o.perform (.resize 1)).1 = (.done, [⟨7, ⟨2, 20⟩⟩, ⟨7, ⟨3, 30⟩⟩]) ∧
        Store.Drains (o.perform (.resize 1)).2.store [⟨1, 10⟩] := by
  have hc : create 3 .adaptive =
      .ok (.adaptive ⟨3, 0, .empty 3, .empty 3, .empty 3, .empty 3⟩ : Cache Nat Nat) := rfl
  refine ⟨_, hc, ?_⟩
  obtain ⟨order, hdrains, hresize⟩ := actAll_resize hc (by decide) (some 7)
    [.request (.put 1 10), .request (.put 2 20), .request (.put 3 30), .request (.get 1)]
  have horder : order = [⟨2, 20⟩, ⟨3, 30⟩, ⟨1, 10⟩] :=
    (congrArg Prod.fst hdrains.drain_eq).symm.trans (by cbv)
  subst horder
  obtain ⟨htold, -, -, -, hrest⟩ := hresize 1 (by cbv)
  rw [← hdrains.length_eq] at htold hrest
  exact ⟨Prod.ext (by cbv) (htold.trans (Observed.notices_actAll rfl _)), hrest⟩

end BoundedCache.Cache
