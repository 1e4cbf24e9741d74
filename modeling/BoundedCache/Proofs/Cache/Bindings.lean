import BoundedCache.Proofs.Cache.Lawful
import BoundedCache.Proofs.Store.Bindings

/-!
# No binding of a cache is lost

Whatever has been done with a cache, it stays within its bounds, and the next request accounts for
every binding. A change of the number of samples touches none of them.

## Main results

- `Cache.accounts_actAll` — whatever was done before, a request accounts for every binding
-/

namespace BoundedCache.Cache

open Keyed

variable {κ ν : Type} [DecidableEq κ] [Hashable κ] {c : Cache κ ν}

/-- Whatever was done with a new cache of any policy, no key is bound twice, there are no more
entries than fit, and the next request accounts for every binding. -/
theorem accounts_actAll {capacity : Nat} {recipe : Recipe κ} (hc : create capacity recipe = .ok c)
    (actions : List (Observed.Action κ ν)) :
    let s := (Observed.actAll { store := c } actions).2.store
    Store.InBounds s ∧
      (∀ request, Store.Accounts s request (Store.perform s request).1
        (Store.perform s request).2) ∧
      ∀ samples, Store.Holds Store.InBounds (Store.capacity s) (Store.entries s)
        (Store.setSamples s samples) := by
  intro s
  let start : Observed (Cache κ ν) := { store := c }
  have h : s.Valid := lawful.actAll (o := start) (create_holds hc).inv actions
  refine ⟨lawful.inBounds h, lawful.accounts h, ?_⟩
  intro samples
  exact (lawful.setSamples h samples).mono fun ht => lawful.inBounds ht

/-- A key that gave way comes back to a full cache made of two parts. It goes to the frequency part,
and the entry there gives way to it. -/
theorem accounts_actAll_revived :
    ∃ c : Cache Nat Nat, create 2 .adaptive = .ok c ∧
      let s := (Observed.actAll { store := c }
        [.request (.put 1 10), .request (.put 2 20), .request (.get 1),
          .request (.put 3 30)]).2.store
      Store.entries s = [⟨3, 30⟩, ⟨1, 10⟩] ∧
        (Store.perform s (.put 2 21)).1 = .evicting (.entry (some ⟨1, 10⟩)) [⟨1, 10⟩] ∧
        Store.Holds Store.InBounds 2 [⟨2, 21⟩, ⟨3, 30⟩] (Store.perform s (.put 2 21)).2 := by
  let c : Cache Nat Nat := .adaptive ⟨2, 0, .empty 2, .empty 2, .empty 2, .empty 2⟩
  have hc : create 2 .adaptive = .ok c := rfl
  obtain ⟨-, hnext, -⟩ := accounts_actAll hc
    [.request (.put 1 10), .request (.put 2 20), .request (.get 1), .request (.put 3 30)]
  refine ⟨c, hc, ?_⟩
  generalize hs : (Observed.actAll { store := c } _).2.store = s at hnext ⊢
  have hentries : Store.entries s = [⟨3, 30⟩, ⟨1, 10⟩] := by
    rw [← hs]
    cbv
  have hcapacity : Store.capacity s = 2 := by
    rw [← hs]
    cbv
  have hreply : (Store.perform s (.put 2 21)).1.reply = .entry (some ⟨1, 10⟩) := by
    rw [← hs]
    cbv
  obtain ⟨displaced, rest, houtcome, hp, hholds, -⟩ := hnext (.put 2 21)
  rw [houtcome] at hreply
  obtain rfl := Reply.entry.inj hreply
  rw [hentries] at hp
  have hrest : rest = [⟨3, 30⟩] :=
    List.perm_singleton.1 ((hp.symm.trans (.swap ..)).cons_inv)
  rw [hcapacity, hrest] at hholds
  exact ⟨hentries, houtcome, hholds⟩

end BoundedCache.Cache
