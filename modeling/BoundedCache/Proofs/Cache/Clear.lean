import BoundedCache.Proofs.Cache.Recipe
import BoundedCache.Proofs.Sampled.Exact
import BoundedCache.Proofs.Store.Run

/-!
# A clear erases all history

A cleared cache is the one that its recipe makes for its capacity, whatever was done with it before,
resizes included: every hidden part of it is either set back or has all along been what a new cache
of that capacity would have. So nothing that is done afterwards can tell the two apart. Of a sampled
cache, the number of samples and the state of the generator are kept on purpose.

## Main definitions

- `Cache.setUpAs` — gives a cache the samples and the generator of another one

## Main results

- `Cache.OfRecipe.exists_create_clear` — a clear leaves a new cache
- `Cache.actAll_clear` — whatever was done before, nothing can be told of it after a clear
-/

namespace BoundedCache

/-! ## What a clear leaves -/

theorem Adaptive.Valid.create_clear {κ ν : Type} [DecidableEq κ] [Hashable κ] {c : Adaptive κ ν}
    (h : c.Valid) : create c.capacity = .ok c.clear := by
  have hclear : c.clear = ⟨c.capacity, 0, .empty c.capacity, .empty c.capacity, .empty c.capacity,
      .empty c.capacity⟩ := by
    rw [Adaptive.clear, Lru.clear, Lfu.clear, Lru.clear, Lru.clear, h.recent_capacity,
      h.frequent_capacity, h.recentGhosts_capacity, h.frequentGhosts_capacity]
  exact create_eq_ok_iff.2 ⟨h.capacity_pos, hclear.symm⟩

/-- Turns do not depend on what was counted before. -/
theorem Observed.actAll_forget_tally {κ ν σ : Type} [Store σ κ ν] {o p : Observed σ}
    (hstore : o.store = p.store) (hlistener : o.listener = p.listener)
    (actions : List (Action κ ν)) :
    (o.actAll actions).1 = (p.actAll actions).1 ∧
      (o.actAll actions).2.store = (p.actAll actions).2.store := by
  induction actions generalizing o p with
  | nil => exact ⟨rfl, hstore⟩
  | cons action rest ih =>
    cases action with
    | request request =>
      have hturn : o.turn request = p.turn request := by
        rw [turn, turn, perform_eq, perform_eq, reported, reported, notices, notices, hstore,
          hlistener]
      have hnext : (o.perform request).2.store = (p.perform request).2.store := by
        rw [store_perform, store_perform, hstore]
      have hlistener' : (o.perform request).2.listener = (p.perform request).2.listener := by
        rw [listener_perform, listener_perform, hlistener]
      obtain ⟨hturns, hlast⟩ := ih hnext hlistener'
      exact ⟨congrArg₂ (fun turn later => [turn] ++ later) hturn hturns, hlast⟩
    | listen listener => exact ih (o := o.listen listener) (p := p.listen listener) hstore rfl
    | setSamples samples =>
      exact ih (o := (o.act (.setSamples samples)).2) (p := (p.act (.setSamples samples)).2)
        (congrArg (Store.setSamples · samples) hstore) hlistener

namespace Cache

variable {κ ν : Type} [DecidableEq κ] [Hashable κ] {c : Cache κ ν} {recipe : Recipe κ} {n : Nat}

/-- Sets the generator of a cache that has one. -/
def withRandom (c : Cache κ ν) (g : Random) : Cache κ ν :=
  match c with
  | .sampled s => .sampled { s with random := g }
  | c => c

/-- Gives a cache what another one has that no recipe tells: how many entries an eviction inspects,
and the state of the generator. Only sampled caches have either. -/
def setUpAs (c old : Cache κ ν) : Cache κ ν :=
  match old with
  | .sampled s => (Store.setSamples c s.samples).withRandom s.random
  | _ => c

theorem clear_clear (c : Cache κ ν) : Store.clear (Store.clear c) = Store.clear c := by
  cases c with
  | tinyLfu s => exact congrArg Cache.tinyLfu s.clear_clear
  | _ => rfl

/-- A clear leaves the new cache of the recipe. -/
theorem OfRecipe.exists_create_clear (h : OfRecipe recipe c) :
    ∃ fresh, create (Store.capacity c) recipe = .ok fresh ∧
      Store.clear c = fresh.setUpAs (Store.clear c) := by
  cases recipe with
  | lru =>
    obtain ⟨s, rfl, hs⟩ := h
    exact ⟨_, map_eq_ok_iff.2 ⟨s.clear, Lru.create_eq_ok_iff.2 ⟨hs.capacity_pos, rfl⟩, rfl⟩, rfl⟩
  | lfu =>
    obtain ⟨s, rfl, hs⟩ := h
    have hpos := Lfu.lawful.capacity_pos hs
    exact ⟨_, map_eq_ok_iff.2 ⟨s.clear, Lfu.create_eq_ok_iff.2 ⟨hpos, rfl⟩, rfl⟩, rfl⟩
  | segmented ratio =>
    obtain ⟨s, rfl, hs, hratio⟩ := h
    exact ⟨_, map_eq_ok_iff.2 ⟨_, hs.create_clear hratio, rfl⟩, rfl⟩
  | adaptive =>
    obtain ⟨s, rfl, hs⟩ := h
    exact ⟨_, map_eq_ok_iff.2 ⟨_, hs.create_clear, rfl⟩, rfl⟩
  | tinyLfu hash seed =>
    obtain ⟨s, rfl, -, hclear⟩ := h
    exact ⟨_, map_eq_ok_iff.2 ⟨_, hclear, rfl⟩, rfl⟩
  | sampled seed =>
    obtain ⟨s, rfl, hs⟩ := h
    have hfew : Policy.fewestSamples ≤ s.capacity := hs.fewest_le.trans hs.samples_le
    refine ⟨_, map_eq_ok_iff.2 ⟨_, Sampled.create_eq hfew seed, rfl⟩, ?_⟩
    -- The number of samples that the old cache got is one that the new cache takes.
    let new : Sampled κ ν := { capacity := s.capacity, random := .ofSeed seed }
    have hset : new.setSamples s.samples = .ok { new with samples := s.samples } :=
      Sampled.setSamples_eq hs.fewest_le hs.samples_le
    exact congrArg (fun t : Sampled κ ν => Cache.sampled { t with random := s.random })
      (Sampled.store_setSamples_of_ok hset).symm

/-- Whatever was done with a cache of any policy, resizes and changes of its samples included, a
clear or a drain leaves the cache that its recipe makes anew for its present capacity, in every part
of its state. Whatever is done with both from then on has the same replies and notices, and leaves
the same state, although one of them may have counted something before. -/
theorem actAll_clear (hc : create n recipe = .ok c)
    (actions : List (Observed.Action κ ν)) {request : Request κ ν}
    (hrequest : request = .clear ∨ request = .drain) :
    let s := (Observed.actAll { store := c } actions).2.store
    let cleared := (Store.perform s request).2
    ∃ fresh, create (Store.capacity s) recipe = .ok fresh ∧ cleared = fresh.setUpAs cleared ∧
      ∀ (tally tally' : Tally) (listener : Option Nat) (later : List (Observed.Action κ ν)),
        let run := Observed.actAll { store := cleared, tally, listener } later
        let run' := Observed.actAll
          { store := fresh.setUpAs cleared, tally := tally', listener } later
        run.1 = run'.1 ∧ run.2.store = run'.2.store := by
  intro s cleared
  have hs : OfRecipe recipe s := .actAll (o := { store := c }) (ofRecipe_create hc) actions
  have hcapacity : Store.capacity cleared = Store.capacity s :=
    (lawful_for _).capacity_perform hs.validFor (by rintro n rfl; simp at hrequest)
  have hclear : Store.clear cleared = cleared := by
    rcases hrequest with rfl | rfl
    · exact clear_clear s
    · exact (congrArg (Store.clear <| Prod.snd ·) (Store.perform_drain s)).trans (clear_clear _)
  obtain ⟨fresh, hfresh, heq⟩ := (hs.perform request).exists_create_clear
  rw [hcapacity] at hfresh
  rw [hclear] at heq
  refine ⟨fresh, hfresh, heq, ?_⟩
  intro tally tally' listener later
  let o : Observed (Cache κ ν) := { store := cleared, tally, listener }
  let p : Observed (Cache κ ν) := { store := fresh.setUpAs cleared, tally := tally', listener }
  have hstore : o.store = p.store := heq
  exact Observed.actAll_forget_tally hstore rfl later

/-- A key that gave way is a ghost, and the capacity has changed since: a clear forgets the one, and
keeps the other. -/
theorem actAll_clear_resized :
    ∃ c : Cache Nat Nat, create 2 .adaptive = .ok c ∧
      let s := (Observed.actAll { store := c }
        [.request (.put 1 10), .request (.put 2 20), .request (.put 3 30),
          .request (.resize 3)]).2.store
      create 3 .adaptive = .ok (Store.clear s) := by
  let c : Cache Nat Nat := .adaptive ⟨2, 0, .empty 2, .empty 2, .empty 2, .empty 2⟩
  have hc : create 2 .adaptive = .ok c := rfl
  refine ⟨c, hc, ?_⟩
  obtain ⟨fresh, hfresh, heq, -⟩ := actAll_clear hc
    [.request (.put 1 10), .request (.put 2 20), .request (.put 3 30), .request (.resize 3)]
    (.inl rfl)
  have hof := OfRecipe.actAll (o := { store := c }) (ofRecipe_create hc)
    [.request (.put 1 10), .request (.put 2 20), .request (.put 3 30), .request (.resize 3)]
  generalize hs : (Observed.actAll { store := c } _).2.store = s at hfresh heq hof ⊢
  have hcapacity : Store.capacity s = 3 := by
    rw [← hs]
    cbv
  obtain ⟨t, rfl, -⟩ := hof
  rw [hcapacity] at hfresh
  exact hfresh.trans (congrArg Except.ok heq.symm)

end Cache

end BoundedCache
