import BoundedCache.Proofs.Cache.Lawful
import BoundedCache.Proofs.Store.Accounting

/-!
# Listeners and tallies of caches

Whatever the policy of a cache, and however it was made, its listener is told exactly the entries
that give way, and its tally counts them. Entries that move inside a cache are of no concern to
either.

## Main definitions

- `Cache.IsNew` — the ways to make a cache

## Main results

- `Cache.reports_actAll` — what the next request tells and counts, whatever was done before, and
  what all requests together counted
-/

namespace BoundedCache.Cache

variable {κ ν : Type} [DecidableEq κ] [Hashable κ] {c : Cache κ ν} {n : Nat}

/-- A cache that was just made, from a recipe, for a policy, or for the name of one. -/
inductive IsNew (n : Nat) (c : Cache κ ν) : Prop where
  | ofRecipe {recipe : Recipe κ} (h : create n recipe = .ok c)
  | ofPolicy [KeyEncoding κ] {policy : Policy} {seed : UInt64} (h : policy.build n seed = .ok c)
  | ofConfig [KeyEncoding κ] {name : String} {seed : UInt64} (h : ofConfig name n seed = .ok c)

/-- However a cache was made, there is a recipe for it. -/
theorem IsNew.exists_recipe (h : IsNew n c) : ∃ recipe, create n recipe = .ok c := by
  cases h with
  | ofRecipe h => exact ⟨_, h⟩
  | ofPolicy h => exact ⟨_, h⟩
  | ofConfig h => exact ⟨_, h⟩

/-- Whatever was done with a new cache of any policy, the next request reports exactly the entries
that give way in it, the listener named last is told just those, and the tally counts them together
with the outcome of a lookup. Since it was new, the tally counted what was reported and the
lookups, and nothing else. -/
theorem reports_actAll (hc : IsNew n c) (tally : Tally) (listener : Option Nat)
    (actions : List (Observed.Action κ ν)) :
    let run := Observed.actAll { store := c, tally, listener } actions
    let o := run.2
    (∀ request,
      let told := (o.perform request).1
      let after := (o.perform request).2
      Store.Reports o.store request told.1 (o.reported request) after.store ∧
        o.Tells (o.reported request) told.2 ∧
        Tally.Counts o.tally request told.1 (o.reported request) after.tally) ∧
      o.listener = ((actions.filterMap Observed.Action.listener?).getLast?).or listener ∧
      Observed.CountsAll tally run.1 o.tally := by
  intro run o
  obtain ⟨recipe, hrecipe⟩ := hc.exists_recipe
  have hvalid : c.Valid := (create_holds hrecipe).inv
  let start : Observed (Cache κ ν) := { store := c, tally, listener }
  have h : o.store.Valid := lawful.actAll (o := start) hvalid actions
  refine ⟨fun request => ⟨?_, o.tells_perform request, Observed.perform_counts lawful h request⟩,
    start.listener_actAll actions, Observed.actAll_counts (o := start) lawful hvalid actions⟩
  have hreports := lawful.reports h request
  rw [← Observed.store_perform] at hreports
  exact hreports

/-- In a cache of two parts, a key that is looked up moves to the other part, and a key that comes
back as a ghost goes there at once: neither is told nor counted as anything but the lookup. The
entries that give way are told to whoever listens at that time, and counted. -/
theorem reports_actAll_adaptive :
    ∃ c : Cache Nat Nat, IsNew 2 c ∧
      let run := Observed.actAll { store := c, listener := some 7 }
        [.request (.put 1 10), .request (.put 2 20), .request (.get 1), .request (.put 3 30),
          .request (.get 2), .listen 8, .request (.put 2 21)]
      run.1.map Observed.Turn.notices = [[], [], [], [⟨7, ⟨2, 20⟩⟩], [], [⟨8, ⟨1, 10⟩⟩]] ∧
        run.2.tally = { hits := 1, misses := 1, evictions := 2 } ∧
        (run.2.perform (.resize 1)).1 = (.done, [⟨8, ⟨2, 21⟩⟩]) ∧
        (run.2.perform (.resize 1)).2.tally.evictions = 3 := by
  have hc : create 2 .adaptive =
      .ok (.adaptive ⟨2, 0, .empty 2, .empty 2, .empty 2, .empty 2⟩ : Cache Nat Nat) := rfl
  obtain ⟨hnext, hlistener, hcounts⟩ := reports_actAll (.ofRecipe hc) {} (some 7)
    [.request (.put 1 10), .request (.put 2 20), .request (.get 1), .request (.put 3 30),
      .request (.get 2), .listen 8, .request (.put 2 21)]
  obtain ⟨-, htells, hcount⟩ := hnext (.resize 1)
  have htally := (Tally.mk.injEq ..).mpr ⟨hcounts.hits_eq.trans (by cbv),
    hcounts.misses_eq.trans (by cbv), hcounts.evictions_eq.trans (by cbv)⟩
  refine ⟨_, .ofRecipe hc, by cbv, htally, Prod.ext (by cbv) ?_, ?_⟩
  · exact (htells.of_some 8 hlistener).trans (by cbv)
  · exact hcount.evictions_eq.trans (by cbv)

end BoundedCache.Cache
