import BoundedCache.Proofs.Adaptive.Drain
import BoundedCache.Proofs.Cache.Lawful

/-!
# Draining caches

What a drain tells is known before it starts. Recency and frequency stores give way as they are
listed, and so do segmented ones; behind an admission window the main part goes first, although the
window is listed first; adaptive replacement goes by its target. Sampled stores draw at random.

## Main definitions

- `TinyLfu.drainOrder` — the entries in the order in which evictions take them
- `Cache.drainOrder?` — the order for a cache of any policy that has one
- `Cache.NamesFirst` — an entry that a cache names ahead of its eviction

## Main results

- `Segmented.evictsInOrder`, `TinyLfu.evictsInOrder` — stores made of two parts
- `Cache.actAll_drains` — whatever was done before, a drain goes by that order
-/

namespace BoundedCache

variable {κ ν : Type} [DecidableEq κ] [Hashable κ]

/-! ## Segmented stores -/

namespace Segmented

variable {c : Segmented κ ν} {ratio : Float}

/-- Both segments are in order, and a list has the entries in probation ahead of the protected
ones. -/
def DrainsAs (c : Segmented κ ν) : List (Entry κ ν) → Prop :=
  Store.InTurn (Store.Lists Lru.Valid) (Store.Lists Lru.Valid) c.probation c.guarded

theorem Valid.drainsAs (h : c.Valid ratio) : c.DrainsAs c.entries :=
  ⟨_, _, ⟨h.fits.joined.left, rfl⟩, ⟨h.fits.joined.right, rfl⟩, rfl⟩

/-- Evictions take the entries as they are listed. -/
theorem evictsInOrder :
    Store.EvictsInOrder (DrainsAs : Segmented κ ν → List (Entry κ ν) → Prop) := by
  refine Lru.evictsInOrder.of_either Lru.evictsInOrder (fun _ => rfl) (fun c => ?_)
    fun c hp hg => ?_
  · have hevict : Store.evict c = _ := c.evict_eq
    rw [hevict]
    exact ⟨rfl, rfl, rfl⟩
  · have hevict : Store.evict c = _ := c.evict_eq
    rw [hevict] at hp hg ⊢
    exact congrArg₂ (fun p g => { c with probation := p, guarded := g }) hp hg

/-- In a full store, the victim is the head of the list. -/
theorem Valid.victim?_eq (h : c.Valid ratio) (hfull : c.isFull = true) :
    c.victim? = c.entries.head? := by
  rw [victim?, if_pos hfull, h.fits.joined.left.wellFormed.oldest?_eq,
    h.fits.joined.right.wellFormed.oldest?_eq, entries, List.head?_append]

end Segmented

/-! ## Admission by popularity -/

namespace TinyLfu

variable {c : TinyLfu κ ν}

/-- The entries in the order in which evictions take them. -/
def drainOrder (c : TinyLfu κ ν) : List (Entry κ ν) := c.main.entries ++ c.window.entries

/-- Both parts are in order, and a list has the entries of the main part ahead of those of the
window. -/
def DrainsAs (c : TinyLfu κ ν) : List (Entry κ ν) → Prop :=
  Store.InTurn Segmented.DrainsAs (Store.Lists Lru.Valid) c.main c.window

theorem Valid.drainsAs (h : c.Valid) : c.DrainsAs c.drainOrder :=
  ⟨_, _, h.joined.right.drainsAs, ⟨h.joined.left, rfl⟩, rfl⟩

/-- Evictions take the main part ahead of the window. -/
theorem evictsInOrder :
    Store.EvictsInOrder (DrainsAs : TinyLfu κ ν → List (Entry κ ν) → Prop) := by
  refine Segmented.evictsInOrder.of_either Lru.evictsInOrder (fun c => ?_) (fun c => ?_)
    fun c hm hw => ?_
  · exact Nat.add_comm c.window.size c.main.size
  · have hevict : Store.evict c = _ := c.evict_eq
    rw [hevict]
    exact ⟨rfl, rfl, rfl⟩
  · have hevict : Store.evict c = _ := c.evict_eq
    rw [hevict] at hm hw ⊢
    exact congrArg₂
      (fun m w => { c with main := m, window := w, popularity := c.popularity.clear }) hm hw

end TinyLfu

theorem Adaptive.Valid.drainsAs {c : Adaptive κ ν} (h : c.Valid) : c.DrainsAs c.drainOrder :=
  ⟨h.recent, h.frequent, rfl⟩

/-! ## Caches -/

namespace Cache

variable {σ : Type} [Store σ κ ν] {c : Cache κ ν} {n : Nat}

/-- The entries in the order in which evictions take them, if the policy settles it. -/
def drainOrder? : Cache κ ν → Option (List (Entry κ ν))
  | .lru s => some s.entries
  | .lfu s => some s.entries
  | .segmented s => some s.entries
  | .adaptive s => some s.drainOrder
  | .tinyLfu s => some s.drainOrder
  | .sampled _ => none

/-- The entry that a cache names as the next one to give way is the head of a list. A segmented one
names it only when it is full, and the last three kinds name none. -/
def NamesFirst (order : List (Entry κ ν)) : Cache κ ν → Prop
  | .lru s => s.oldest? = order.head?
  | .lfu s => s.next? = order.head?
  | .segmented s => s.isFull = true → s.victim? = order.head?
  | .adaptive _ | .tinyLfu _ | .sampled _ => True

/-- A cache evicts as its store does. -/
theorem Wraps.evictsInOrder {wrap : σ → Cache κ ν} (h : Wraps wrap)
    {holds : σ → List (Entry κ ν) → Prop} (hholds : Store.EvictsInOrder holds) :
    Store.EvictsInOrder fun c l => ∃ s, c = wrap s ∧ holds s l where
  size_eq := by
    rintro _ l ⟨s, rfl, hs⟩
    exact (h.simulation.size_eq rfl).trans (hholds.size_eq hs)
  evict := by
    rintro _ l ⟨s, rfl, hs⟩
    obtain ⟨hfst, hsnd⟩ := h.simulation.evict (rfl : wrap s = wrap s)
    obtain ⟨hhead, hrest⟩ := hholds.evict hs
    exact ⟨hfst.trans hhead, _, hsnd, hrest⟩
  clear_evict := by
    rintro _ l ⟨s, rfl, hs⟩
    obtain ⟨-, hsnd⟩ := h.simulation.evict (rfl : wrap s = wrap s)
    rw [hsnd, h.simulation.clear rfl, hholds.clear_evict hs, h.simulation.clear rfl]

/-- A drain of a cache in order goes by the order of its policy. -/
theorem Valid.drains (h : c.Valid) {order : List (Entry κ ν)}
    (horder : c.drainOrder? = some order) : Store.Drains c order ∧ c.NamesFirst order := by
  obtain ⟨policy, h⟩ := h
  cases policy with
  | lru =>
    obtain ⟨s, rfl, hs⟩ := h
    obtain rfl := Option.some.inj horder
    exact ⟨(wraps_lru.evictsInOrder Lru.evictsInOrder).drains ⟨s, rfl, hs, rfl⟩,
      hs.wellFormed.oldest?_eq⟩
  | lfu =>
    obtain ⟨s, rfl, hs⟩ := h
    obtain rfl := Option.some.inj horder
    exact ⟨(wraps_lfu.evictsInOrder Lfu.evictsInOrder).drains ⟨s, rfl, hs, rfl⟩, hs.next?_eq⟩
  | segmented =>
    obtain ⟨s, rfl, ratio, hs⟩ := h
    obtain rfl := Option.some.inj horder
    exact ⟨(wraps_segmented.evictsInOrder Segmented.evictsInOrder).drains ⟨s, rfl, hs.drainsAs⟩,
      hs.victim?_eq⟩
  | adaptive =>
    obtain ⟨s, rfl, hs⟩ := h
    obtain rfl := Option.some.inj horder
    exact ⟨(wraps_adaptive.evictsInOrder Adaptive.evictsInOrder).drains ⟨s, rfl, hs.drainsAs⟩,
      trivial⟩
  | tinyLfu =>
    obtain ⟨s, rfl, hs⟩ := h
    obtain rfl := Option.some.inj horder
    exact ⟨(wraps_tinyLfu.evictsInOrder TinyLfu.evictsInOrder).drains ⟨s, rfl, hs.drainsAs⟩,
      trivial⟩
  | sampled =>
    obtain ⟨s, rfl, hs⟩ := h
    cases horder

/-- Whatever was done with a new cache, evictions take its entries in the order that its policy
gives, and end when all are gone. A drain announces and counts just these, in that order, and else
leaves what a clear leaves. What the cache names ahead is the first of them. -/
theorem actAll_drains {recipe : Recipe κ} (hc : create n recipe = .ok c) (listener : Option Nat)
    (actions : List (Observed.Action κ ν)) :
    let o := (Observed.actAll { store := c, listener } actions).2
    ∀ order, o.store.drainOrder? = some order →
      Store.Drains o.store order ∧
        (o.perform .drain).1 = (.done, o.notices order) ∧
        (o.perform .drain).2 =
          { (o.perform .clear).2 with
            tally := o.tally.recordAll (order.map fun _ => .eviction) } ∧
        o.store.NamesFirst order := by
  intro o order horder
  let start : Observed (Cache κ ν) := { store := c, listener }
  have hvalid : o.store.Valid := lawful.actAll (o := start) (create_holds hc).inv actions
  obtain ⟨hdrains, hfirst⟩ := hvalid.drains horder
  have hdrain : Store.perform o.store .drain =
      (.evicting .done order, Store.clear o.store) := by
    rw [Store.perform_drain, hdrains.drain_eq]
  refine ⟨hdrains, ?_, ?_, hfirst⟩
  · rw [Observed.perform_eq, hdrain, Outcome.evicted_evicting]
    rfl
  · rw [Observed.perform_eq, hdrain, Outcome.events_evicting]
    rfl

/-- A key came back after it had given way, so the recency part may keep one entry: a drain takes
the frequency part first, although it is listed last. -/
theorem actAll_drains_revived :
    ∃ c : Cache Nat Nat, create 2 .adaptive = .ok c ∧
      let o := (Observed.actAll { store := c, listener := some 7 }
        [.request (.put 1 10), .request (.put 2 20), .request (.put 3 30),
          .request (.put 1 11)]).2
      Store.entries o.store = [⟨3, 30⟩, ⟨1, 11⟩] ∧
        (o.perform .drain).1 = (.done, [⟨7, ⟨1, 11⟩⟩, ⟨7, ⟨3, 30⟩⟩]) := by
  have hc : create 2 .adaptive =
      .ok (.adaptive ⟨2, 0, .empty 2, .empty 2, .empty 2, .empty 2⟩ : Cache Nat Nat) := rfl
  refine ⟨_, hc, by cbv, ?_⟩
  obtain ⟨-, htold, -⟩ := actAll_drains hc (some 7)
    [.request (.put 1 10), .request (.put 2 20), .request (.put 3 30), .request (.put 1 11)]
    [⟨1, 11⟩, ⟨3, 30⟩] (by cbv)
  exact htold.trans (congrArg (Prod.mk _) (Observed.notices_actAll rfl _))

end Cache

end BoundedCache
