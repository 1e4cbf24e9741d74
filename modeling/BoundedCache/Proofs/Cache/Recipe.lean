import BoundedCache.Proofs.Cache.Lawful
import BoundedCache.Proofs.TinyLfu.Clear

/-!
# Recipes

A cache keeps the policy and the parameters that it was made with, whatever is done with it. The
capacity and the number of samples may change, but never to something that the recipe would not
allow.

## Main definitions

- `Cache.OfRecipe` — the cache has the policy and the parameters of a recipe

## Main results

- `Cache.ofRecipe_create` — a new cache is one of its recipe
- `Cache.OfRecipe.actAll` — it stays one of that recipe
-/

namespace BoundedCache.Cache

variable {κ ν σ : Type} [DecidableEq κ] [Hashable κ] [Store σ κ ν] {c : Cache κ ν}
  {recipe : Recipe κ} {n : Nat}

/-- The cache has the policy and the parameters of a recipe, and its store is in order. Behind an
admission window the hash and the seed show in what a clear would leave. -/
def OfRecipe : Recipe κ → Cache κ ν → Prop
  | .lru, c => ∃ s, c = .lru s ∧ s.Valid
  | .lfu, c => ∃ s, c = .lfu s ∧ s.Valid
  | .segmented ratio, c => ∃ s, c = .segmented s ∧ s.Valid ratio ∧ 0 < ratio ∧ ratio < 1
  | .adaptive, c => ∃ s, c = .adaptive s ∧ s.Valid
  | .tinyLfu hash seed, c =>
    ∃ s, c = .tinyLfu s ∧ s.Valid ∧ TinyLfu.create s.capacity hash seed = .ok s.clear
  | .sampled _, c => ∃ s, c = .sampled s ∧ s.Valid

/-- A new cache is one of its recipe. -/
theorem ofRecipe_create (hc : create n recipe = .ok c) : OfRecipe recipe c := by
  cases recipe with
  | lru =>
    obtain ⟨s, hs, rfl⟩ := map_eq_ok_iff.1 hc
    exact ⟨s, rfl, (Lru.create_holds hs).inv⟩
  | lfu =>
    obtain ⟨s, hs, rfl⟩ := map_eq_ok_iff.1 hc
    exact ⟨s, rfl, (Lfu.create_holds hs).inv⟩
  | segmented ratio =>
    obtain ⟨s, hs, rfl⟩ := map_eq_ok_iff.1 hc
    obtain ⟨_, hratio, -⟩ := bind_eq_ok_iff.1 hs
    exact ⟨s, rfl, (Segmented.create_holds hs).inv, requireFraction_eq_ok_iff.1 hratio⟩
  | adaptive =>
    obtain ⟨s, hs, rfl⟩ := map_eq_ok_iff.1 hc
    exact ⟨s, rfl, (Adaptive.create_holds hs).inv⟩
  | tinyLfu hash seed =>
    obtain ⟨s, hs, rfl⟩ := map_eq_ok_iff.1 hc
    have hcapacity : s.capacity = n := (TinyLfu.create_popularity hs).1
    refine ⟨s, rfl, (TinyLfu.create_holds hs).inv, ?_⟩
    rw [TinyLfu.clear_of_create hs, hcapacity, hs]
  | sampled seed =>
    obtain ⟨s, hs, rfl⟩ := map_eq_ok_iff.1 hc
    exact ⟨s, rfl, (Sampled.create_holds hs).inv⟩

namespace Wraps

variable {wrap : σ → Cache κ ν}

theorem perform_eq (h : Wraps wrap) (s : σ) (request : Request κ ν) :
    Store.perform (wrap s) request =
      ((Store.perform s request).1, wrap (Store.perform s request).2) := by
  obtain ⟨hfst, hsnd⟩ := h.simulation.perform rfl request
  exact Prod.ext hfst hsnd

/-- What a request keeps in a store, it keeps in a cache made of it. -/
theorem exists_perform (h : Wraps wrap) {P : σ → Prop} {s : σ} {request : Request κ ν}
    (hP : P (Store.perform s request).2) :
    ∃ t, (Store.perform (wrap s) request).2 = wrap t ∧ P t :=
  ⟨_, congrArg Prod.snd (h.perform_eq s request), hP⟩

end Wraps

namespace OfRecipe

theorem validFor (h : OfRecipe recipe c) : ValidFor recipe.policy c := by
  cases recipe with
  | segmented ratio =>
    obtain ⟨s, rfl, hs, -⟩ := h
    exact ⟨s, rfl, ratio, hs⟩
  | tinyLfu hash seed =>
    obtain ⟨s, rfl, hs, -⟩ := h
    exact ⟨s, rfl, hs⟩
  | _ => exact h

theorem perform (h : OfRecipe recipe c) (request : Request κ ν) :
    OfRecipe recipe (Store.perform c request).2 := by
  cases recipe with
  | lru =>
    obtain ⟨s, rfl, hs⟩ := h
    exact wraps_lru.exists_perform (Lru.lawful.perform hs request)
  | lfu =>
    obtain ⟨s, rfl, hs⟩ := h
    exact wraps_lfu.exists_perform (Lfu.lawful.perform hs request)
  | segmented ratio =>
    obtain ⟨s, rfl, hs, hratio⟩ := h
    exact wraps_segmented.exists_perform ⟨(Segmented.lawful ratio).perform hs request, hratio⟩
  | adaptive =>
    obtain ⟨s, rfl, hs⟩ := h
    exact wraps_adaptive.exists_perform (Adaptive.lawful.perform hs request)
  | tinyLfu hash seed =>
    obtain ⟨s, rfl, hs, hclear⟩ := h
    exact wraps_tinyLfu.exists_perform
      ⟨TinyLfu.lawful.perform hs request, TinyLfu.create_clear_perform hs hclear request⟩
  | sampled seed =>
    obtain ⟨s, rfl, hs⟩ := h
    exact wraps_sampled.exists_perform (Sampled.lawful.perform hs request)

theorem setSamples (h : OfRecipe recipe c) (samples : Nat) :
    OfRecipe recipe (Store.setSamples c samples) := by
  cases recipe with
  | sampled seed =>
    obtain ⟨s, rfl, hs⟩ := h
    exact ⟨_, rfl, (hs.store_setSamples samples).inv⟩
  | _ =>
    obtain ⟨s, rfl, hs⟩ := h
    exact ⟨s, rfl, hs⟩

theorem act {o : Observed (Cache κ ν)} (h : OfRecipe recipe o.store)
    (action : Observed.Action κ ν) : OfRecipe recipe (o.act action).2.store := by
  cases action with
  | request request =>
    have hnext := h.perform request
    rw [← Observed.store_perform] at hnext
    exact hnext
  | listen listener => exact h
  | setSamples samples => exact h.setSamples samples

theorem actAll {o : Observed (Cache κ ν)} (h : OfRecipe recipe o.store)
    (actions : List (Observed.Action κ ν)) : OfRecipe recipe (o.actAll actions).2.store := by
  induction actions generalizing o with
  | nil => exact h
  | cons action rest ih => exact ih (h.act action)

end OfRecipe

end BoundedCache.Cache
