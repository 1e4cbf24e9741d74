import BoundedCache.Observed
import BoundedCache.Proofs.Cache.InPlace
import BoundedCache.Proofs.Sampled.Exact

/-!
# What a cache accepts

A cache takes a new capacity if its recipe makes a cache of that capacity, and gives the same reason
if it does not. Only a sampled cache asks for something else: room for the entries that an eviction
inspects, however many these are by now. Whoever watches a cache learns nothing of a change that is
refused, except that it was.

## Main definitions

- `Reply.ofVerdict` — the reply to a change that is accepted or refused
- `Observed.resizeInPlace` — the resize of an observed cache, step by step

## Main results

- `Cache.OfRecipe.verdict_resize` — a resize is accepted if a new cache of that capacity is
- `Cache.actAll_reconfigure` — whatever was done before, a change that is refused changes nothing
-/

namespace BoundedCache

open InPlace

namespace Reply

variable {κ ν : Type}

/-- The reply to a change of the settings. -/
def ofVerdict : Except SetupError Unit → Reply κ ν
  | .ok () => .done
  | .error cause => .refused cause

theorem ofVerdict_eq_done_iff {outcome : Except SetupError Unit} :
    (ofVerdict outcome : Reply κ ν) = .done ↔ outcome = .ok () := by
  rcases outcome with cause | ⟨⟩
  · simp [ofVerdict]
  · simp [ofVerdict]

end Reply

variable {κ ν : Type} [DecidableEq κ] [Hashable κ] {n : Nat}

/-! ## Verdicts -/

theorem Lru.verdict_create :
    verdict (create n : Except _ (Lru κ ν)) = verdict (requireCapacity n) :=
  verdict_bind fun _ hn => ⟨_, bind_eq_ok_iff.2 ⟨_, hn, rfl⟩⟩

theorem Lru.verdict_resize (c : Lru κ ν) :
    verdict (c.resize n) = verdict (requireCapacity n) := by
  rw [resize_def]
  exact verdict_bind fun _ hn => ⟨_, bind_eq_ok_iff.2 ⟨_, hn, rfl⟩⟩

theorem Lfu.verdict_create :
    verdict (create n : Except _ (Lfu κ ν)) = verdict (requireCapacity n) :=
  verdict_bind fun _ hn => ⟨_, bind_eq_ok_iff.2 ⟨_, hn, rfl⟩⟩

theorem Lfu.verdict_resize (c : Lfu κ ν) :
    verdict (c.resize n) = verdict (requireCapacity n) := by
  rw [resize_def]
  exact verdict_bind fun _ hn => ⟨_, bind_eq_ok_iff.2 ⟨_, hn, rfl⟩⟩

theorem Segmented.verdict_create {ratio : Float} (hratio : 0 < ratio ∧ ratio < 1) :
    verdict (create n ratio : Except _ (Segmented κ ν)) = verdict (layout n ratio) := by
  have hfraction : requireFraction .protectedRatio ratio = .ok () :=
    requireFraction_eq_ok_iff.2 hratio
  rw [create, hfraction]
  refine verdict_bind (x := layout n ratio) fun split hlayout => ?_
  obtain ⟨hn, hm, -⟩ := layout_eq_ok_iff.1 hlayout
  obtain ⟨_, -, hmade⟩ := bind_eq_ok_iff.1 (create_eq_ok (κ := κ) (ν := ν) hratio hn hm)
  exact ⟨_, hmade⟩

theorem Segmented.Valid.verdict_resize {ratio : Float} {c : Segmented κ ν} (h : c.Valid ratio) :
    verdict (c.resize n) = verdict (layout n ratio) := by
  rw [← h.ratio_eq, resize_def]
  refine verdict_bind fun split hlayout => ?_
  rw [h.ratio_eq] at hlayout
  obtain ⟨hn, hm, -⟩ := layout_eq_ok_iff.1 hlayout
  obtain ⟨_, _, hd, -⟩ := h.exists_resize hn hm
  rw [resize_def] at hd
  exact ⟨_, hd⟩

theorem Adaptive.verdict_create :
    verdict (create n : Except _ (Adaptive κ ν)) = verdict (requireCapacity n) :=
  verdict_bind fun _ hn => ⟨_, create_eq_ok_iff.2 ⟨requireCapacity_eq_ok_iff.1 hn, rfl⟩⟩

theorem Adaptive.Valid.verdict_resize {c : Adaptive κ ν} (h : c.Valid) :
    verdict (c.resize n) = verdict (requireCapacity n) := by
  rw [resize_def]
  refine verdict_bind fun _ hn => ?_
  obtain ⟨_, _, hd, -⟩ := h.exists_resize (requireCapacity_eq_ok_iff.1 hn)
  rw [resize_def] at hd
  exact ⟨_, hd⟩

theorem TinyLfu.verdict_create (hash : KeyHash κ) (seed : UInt64) :
    verdict (create n hash seed : Except _ (TinyLfu κ ν)) = verdict (layout n) :=
  verdict_bind fun _ hlayout => exists_create hlayout hash seed

theorem TinyLfu.Valid.verdict_resize {c : TinyLfu κ ν} (h : c.Valid) :
    verdict (c.resize n) = verdict (layout n) := by
  rw [resize_def]
  refine verdict_bind fun parts hlayout => ?_
  obtain ⟨hwindow, -, hsum, -⟩ := layout_facts hlayout
  obtain ⟨_, hpopularity⟩ := exists_popularity (n := n) (by omega) c.seed
  obtain ⟨_, _, _, hd, -⟩ := h.exists_resize hlayout hpopularity
  rw [resize_def] at hd
  exact ⟨_, hd⟩

/-! ## Observed caches -/

/-- The resize of an observed cache, step by step. Whatever it drops is signalled, also if a later
step is refused. -/
def Observed.resizeInPlace (o : Observed (Cache κ ν)) (n : Nat) :
    (Reply κ ν × List (Notice κ ν)) × Observed (Cache κ ν) :=
  let (outcome, dropped, store) := o.store.resizeInPlace n
  let (notices, o) := { o with store }.hearAll (dropped.map .evicted)
  ((.ofVerdict outcome, notices), o)

/-- A resize of an observed cache that is made step by step comes to the same as one that is made at
once. -/
theorem Observed.resizeInPlace_eq_perform {policy : Policy} {o : Observed (Cache κ ν)}
    (h : Cache.ValidFor policy o.store) (n : Nat) : o.resizeInPlace n = o.perform (.resize n) := by
  rw [resizeInPlace, h.resizeInPlace_eq, perform, Store.perform_resize]
  rcases Store.resize o.store n with cause | ⟨dropped, d⟩
  · rfl
  · rfl

theorem Observed.perform_resize (o : Observed (Cache κ ν)) (n : Nat) :
    (o.perform (.resize n)).1.1 = .ofVerdict (verdict (Store.resize o.store n)) := by
  rw [perform, Store.perform_resize]
  rcases Store.resize o.store n with cause | ⟨dropped, d⟩
  · rfl
  · rfl

/-- A resize that is refused is neither announced nor counted. -/
theorem Observed.perform_resize_refused (o : Observed (Cache κ ν)) {n : Nat} {cause : SetupError}
    (h : (o.perform (.resize n)).1.1 = .refused cause) :
    o.perform (.resize n) = ((.refused cause, []), o) := by
  rw [perform, Store.perform_resize] at h ⊢
  rcases hd : Store.resize o.store n with cause' | ⟨dropped, d⟩
  · rw [hd] at h
    obtain rfl := Reply.refused.inj h
    rfl
  · rw [hd] at h
    cases h

namespace Cache

variable {c : Cache κ ν} {recipe : Recipe κ}

/-- A cache of any policy but one accepts the capacities that its recipe does. -/
theorem OfRecipe.verdict_resize (h : OfRecipe recipe c) (hpolicy : recipe.policy ≠ .sampled)
    (n : Nat) : verdict (Store.resize c n) = verdict (create n recipe : Except _ (Cache κ ν)) := by
  cases recipe with
  | lru =>
    obtain ⟨s, rfl, -⟩ := h
    rw [wraps_lru.resize_eq, create, verdict_map, verdict_map]
    exact s.verdict_resize.trans Lru.verdict_create.symm
  | lfu =>
    obtain ⟨s, rfl, -⟩ := h
    rw [wraps_lfu.resize_eq, create, verdict_map, verdict_map]
    exact s.verdict_resize.trans Lfu.verdict_create.symm
  | segmented ratio =>
    obtain ⟨s, rfl, hs, hratio⟩ := h
    rw [wraps_segmented.resize_eq, create, verdict_map, verdict_map]
    exact hs.verdict_resize.trans (Segmented.verdict_create hratio).symm
  | adaptive =>
    obtain ⟨s, rfl, hs⟩ := h
    rw [wraps_adaptive.resize_eq, create, verdict_map, verdict_map]
    exact hs.verdict_resize.trans Adaptive.verdict_create.symm
  | tinyLfu hash seed =>
    obtain ⟨s, rfl, hs, -⟩ := h
    rw [wraps_tinyLfu.resize_eq, create, verdict_map, verdict_map]
    exact hs.verdict_resize.trans (TinyLfu.verdict_create hash seed).symm
  | sampled seed => exact absurd rfl hpolicy

/-- A sampled cache accepts a capacity that is not below its number of samples. -/
theorem verdict_resize_sampled {s : Sampled κ ν} (h : s.Valid) (n : Nat) :
    verdict (Store.resize (.sampled s : Cache κ ν) n) = .ok () ↔ s.samples ≤ n := by
  rw [wraps_sampled.resize_eq, verdict_map, verdict_eq_ok_iff]
  constructor
  · rintro ⟨_, hd⟩
    exact (Sampled.resize_eq_ok_iff.1 hd).2.1
  · intro hsamples
    exact ⟨_, Sampled.resize_eq (Nat.lt_of_lt_of_le h.samples_pos hsamples) hsamples⟩

/-- Whatever was done with a cache of any policy, resizes and changes of its samples included, and
whoever watches it: a resize that is refused announces nothing, counts nothing, and changes no part
of the cache. This is so although the resize goes through many steps, of which any may be refused;
made step by step, it comes to the same as it does at once. A cache accepts the capacities that its
recipe does, and refuses others for the same reason, and a sampled cache accepts those that are not
below its number of samples. Nor does a number of samples that is refused change anything. -/
theorem actAll_reconfigure (hc : create n recipe = .ok c)
    (actions : List (Observed.Action κ ν)) (tally : Tally) (listener : Option Nat) :
    let s := (Observed.actAll { store := c } actions).2.store
    let o : Observed (Cache κ ν) := { store := s, tally, listener }
    (∀ m,
      o.resizeInPlace m = o.perform (.resize m) ∧
        (∀ cause, (o.resizeInPlace m).1.1 = .refused cause →
          o.resizeInPlace m = ((.refused cause, []), o)) ∧
        (recipe.policy ≠ .sampled →
          (o.perform (.resize m)).1.1 =
            .ofVerdict (verdict (create m recipe : Except _ (Cache κ ν)))) ∧
        ∀ s, o.store = .sampled s → ((o.perform (.resize m)).1.1 = .done ↔ s.samples ≤ m)) ∧
      ∀ samples,
        (o.store.setSamplesInPlace samples).2.2 = Store.setSamples o.store samples ∧
          ∀ cause, (o.store.setSamplesInPlace samples).1 = .error cause →
            o.store.setSamplesInPlace samples = (.error cause, [], o.store) := by
  intro s o
  have h : OfRecipe recipe o.store :=
    .actAll (o := { store := c }) (ofRecipe_create hc) actions
  have hinPlace := Observed.resizeInPlace_eq_perform h.validFor
  refine ⟨fun m => ⟨hinPlace m, ?_, ?_, ?_⟩, fun samples => ⟨?_, ?_⟩⟩
  · intro cause hrefused
    rw [hinPlace] at hrefused ⊢
    exact o.perform_resize_refused hrefused
  · intro hpolicy
    rw [o.perform_resize, h.verdict_resize hpolicy]
  · intro s hs
    have hvalid : (Cache.sampled s : Cache κ ν).Valid := hs ▸ ⟨_, h.validFor⟩
    rw [o.perform_resize, Reply.ofVerdict_eq_done_iff, hs]
    exact verdict_resize_sampled (valid_sampled_iff.1 hvalid) m
  · obtain ⟨outcome, heq, -⟩ := o.store.setSamplesInPlace_eq samples
    rw [heq]
  · intro cause hrefused
    obtain ⟨outcome, heq, hsame⟩ := o.store.setSamplesInPlace_eq samples
    rw [heq] at hrefused ⊢
    obtain rfl : outcome = .error cause := hrefused
    rw [hsame cause rfl]

/-- An eviction has come to inspect more entries than would fit. -/
theorem actAll_reconfigure_sampled :
    ∃ c : Cache Nat Nat, create 6 (.sampled 7) = .ok c ∧
      let s := (Observed.actAll { store := c } [.setSamples 6, .request (.put 1 10)]).2.store
      let o : Observed (Cache Nat Nat) :=
        { store := s, tally := { evictions := 3 }, listener := some 8 }
      o.resizeInPlace 5 = ((.refused (.samplesExceedCapacity 6 5), []), o) := by
  have hc : create 6 (.sampled 7) =
      .ok (.sampled { capacity := 6, random := .ofSeed 7 } : Cache Nat Nat) := rfl
  refine ⟨_, hc, ?_⟩
  obtain ⟨hresize, -⟩ := actAll_reconfigure hc [.setSamples 6, .request (.put 1 10)]
    { evictions := 3 } (some 8)
  obtain ⟨-, hrefused, -⟩ := hresize 5
  exact hrefused _ (by cbv)

end Cache

end BoundedCache
