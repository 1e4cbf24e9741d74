import BoundedCache.Cache
import BoundedCache.Proofs.Adaptive.Lawful
import BoundedCache.Proofs.Lfu.Lawful
import BoundedCache.Proofs.Sampled.Lawful
import BoundedCache.Proofs.TinyLfu.Lawful

/-!
# Caches are lawful

A cache does with its store whatever that store does, so it is lawful since each of the six kinds
of store is.

## Main definitions

- `Recipe.policy` — the policy that a recipe is for
- `Cache.Wraps` — a way to make a cache of a store
- `Cache.Valid` — the store of a cache is in order

## Main results

- `Cache.Wraps.lawful` — caches made of lawful stores are lawful
- `Cache.lawful_for`, `Cache.lawful` — the laws of a bounded map, for every policy
- `Cache.create_holds_for`, `Cache.create_holds` — a new cache is in order, and empty
-/

namespace BoundedCache

/-- The policy that a recipe is for. -/
def Recipe.policy {κ : Type} : Recipe κ → Policy
  | .lru => .lru
  | .lfu => .lfu
  | .segmented _ => .segmented
  | .adaptive => .adaptive
  | .tinyLfu _ _ => .tinyLfu
  | .sampled _ => .sampled

namespace Cache

variable {κ ν σ : Type} [DecidableEq κ] [Hashable κ] [Store σ κ ν] {c : Cache κ ν} {n : Nat}

/-! ## Wrapped stores -/

/-- A cache made this way reads and changes the store that it was made of. -/
structure Wraps (wrap : σ → Cache κ ν) : Prop where
  read_eq : ∀ {β : Type} (s : σ) (f : ∀ (σ : Type) [Store σ κ ν], σ → β),
    (wrap s).read f = f σ s
  change_eq : ∀ {β : Type} (s : σ) (f : ∀ (σ : Type) [Store σ κ ν], σ → β × σ),
    (wrap s).change f = (f σ s).map id wrap
  changeAloud_eq : ∀ {β : Type} (s : σ)
    (f : ∀ (σ : Type) [Store σ κ ν], σ → Aloud κ ν (β × σ)),
    (wrap s).changeAloud f = Prod.map id wrap <$> f σ s
  changeAloud?_eq : ∀ (s : σ)
    (f : ∀ (σ : Type) [Store σ κ ν], σ → Except SetupError (Aloud κ ν σ)),
    (wrap s).changeAloud? f = (f σ s).map (wrap <$> ·)

theorem wraps_lru : Wraps (.lru : Lru κ ν → Cache κ ν) :=
  ⟨fun _ _ => rfl, fun _ _ => rfl, fun _ _ => rfl, fun _ _ => rfl⟩

theorem wraps_lfu : Wraps (.lfu : Lfu κ ν → Cache κ ν) :=
  ⟨fun _ _ => rfl, fun _ _ => rfl, fun _ _ => rfl, fun _ _ => rfl⟩

theorem wraps_segmented : Wraps (.segmented : Segmented κ ν → Cache κ ν) :=
  ⟨fun _ _ => rfl, fun _ _ => rfl, fun _ _ => rfl, fun _ _ => rfl⟩

theorem wraps_adaptive : Wraps (.adaptive : Adaptive κ ν → Cache κ ν) :=
  ⟨fun _ _ => rfl, fun _ _ => rfl, fun _ _ => rfl, fun _ _ => rfl⟩

theorem wraps_tinyLfu : Wraps (.tinyLfu : TinyLfu κ ν → Cache κ ν) :=
  ⟨fun _ _ => rfl, fun _ _ => rfl, fun _ _ => rfl, fun _ _ => rfl⟩

theorem wraps_sampled : Wraps (.sampled : Sampled κ ν → Cache κ ν) :=
  ⟨fun _ _ => rfl, fun _ _ => rfl, fun _ _ => rfl, fun _ _ => rfl⟩

namespace Wraps

variable {wrap : σ → Cache κ ν}

theorem matches_change (h : Wraps wrap) {β : Type} (s : σ)
    (f : ∀ (σ : Type) [Store σ κ ν], σ → β × σ) :
    Matches (fun c s => c = wrap s) ((wrap s).change f) (f σ s) := by
  rw [h.change_eq]
  exact ⟨rfl, rfl⟩

theorem matches_changeAloud (h : Wraps wrap) {β : Type} (s : σ)
    (f : ∀ (σ : Type) [Store σ κ ν], σ → Aloud κ ν (β × σ)) :
    Matches (fun c s => c = wrap s) ((wrap s).changeAloud f).value (f σ s).value := by
  rw [h.changeAloud_eq]
  exact ⟨rfl, rfl⟩

/-- What the store signals, the cache signals. -/
theorem signals_changeAloud (h : Wraps wrap) {β : Type} (s : σ)
    (f : ∀ (σ : Type) [Store σ κ ν], σ → Aloud κ ν (β × σ)) :
    ((wrap s).changeAloud f).signals = (f σ s).signals := by
  rw [h.changeAloud_eq]
  rfl

theorem resize_eq (h : Wraps wrap) (s : σ) (n : Nat) :
    Store.resize (wrap s) n = (Store.resize s n).map (·.map id wrap) := by
  have hresize : Store.resizeAloud (wrap s) n = _ := h.changeAloud?_eq s _
  rw [Store.resize, Store.resize, hresize]
  cases Store.resizeAloud s n with
  | error cause => rfl
  | ok w => rfl

/-- A resize of a cache is one of its store. -/
theorem exists_resize_eq (h : Wraps wrap) {s : σ} {dropped : List (Entry κ ν)} {d : Cache κ ν}
    (hd : Store.resize (wrap s) n = .ok (dropped, d)) :
    ∃ t, Store.resize s n = .ok (dropped, t) ∧ d = wrap t := by
  rw [h.resize_eq] at hd
  obtain ⟨⟨dropped', t⟩, ht, heq⟩ := map_eq_ok_iff.1 hd
  obtain ⟨rfl, rfl⟩ := Prod.mk.inj heq
  exact ⟨t, ht, rfl⟩

theorem simulation (h : Wraps wrap) : Store.Simulation fun c s => c = wrap s where
  size_eq := by
    rintro _ s rfl
    exact h.read_eq s _
  contains_eq := by
    rintro _ s rfl k
    exact h.read_eq s _
  peek_eq := by
    rintro _ s rfl k
    exact h.read_eq s _
  get := by
    rintro _ s rfl k
    exact h.matches_changeAloud s _
  signals_get := by
    rintro _ s rfl k
    exact h.signals_changeAloud s _
  put := by
    rintro _ s rfl k v
    exact h.matches_changeAloud s _
  remove := by
    rintro _ s rfl k
    exact h.matches_change s _
  evict := by
    rintro _ s rfl
    exact h.matches_changeAloud s _
  clear := by
    rintro _ s rfl
    exact (h.matches_change s fun _ _ s => ((), Store.clear s)).related
  resize := by
    rintro _ s rfl n
    rw [h.resize_eq]
    cases Store.resize s n with
    | error cause => exact rfl
    | ok p => exact ⟨rfl, rfl⟩
  setSamples := by
    rintro _ s rfl n
    exact (h.matches_change s fun _ _ s => ((), Store.setSamples s n)).related

/-- Caches made of lawful stores are lawful. -/
theorem lawful (h : Wraps wrap) {Inv : σ → Prop} (hlaw : Store.Lawful Inv) :
    Store.Lawful fun c => ∃ s, c = wrap s ∧ Inv s := by
  refine .of_simulation h.simulation ?_ ?_ hlaw
  · rintro _ s rfl
    exact h.read_eq s _
  · rintro _ s rfl
    exact h.read_eq s _

/-- A cache made of a new store is new. -/
theorem create_holds (h : Wraps wrap) {Inv : σ → Prop} {made : Except SetupError σ}
    (hmade : ∀ {s}, made = .ok s → Store.Holds Inv n [] s) (hc : made.map wrap = .ok c) :
    Store.Holds (fun c => ∃ s, c = wrap s ∧ Inv s) n [] c := by
  obtain ⟨s, hs, rfl⟩ := map_eq_ok_iff.1 hc
  obtain ⟨hinv, hcapacity, hp⟩ := hmade hs
  refine ⟨⟨s, rfl, hinv⟩, ?_, ?_⟩
  · exact (h.read_eq s _).trans hcapacity
  · exact (List.Perm.of_eq (h.read_eq s _)).trans hp

end Wraps

/-! ## The six policies -/

/-- The cache has a certain policy, and its store is in order. -/
def ValidFor : Policy → Cache κ ν → Prop
  | .lru, c => ∃ s, c = .lru s ∧ Lru.Valid s
  | .lfu, c => ∃ s, c = .lfu s ∧ Lfu.Valid s
  | .segmented, c => ∃ s, c = .segmented s ∧ ∃ ratio, Segmented.Valid ratio s
  | .adaptive, c => ∃ s, c = .adaptive s ∧ Adaptive.Valid s
  | .tinyLfu, c => ∃ s, c = .tinyLfu s ∧ TinyLfu.Valid s
  | .sampled, c => ∃ s, c = .sampled s ∧ Sampled.Valid s

/-- The store of a cache is in order, whatever its policy. -/
def Valid (c : Cache κ ν) : Prop := ∃ policy, ValidFor policy c

theorem valid_sampled_iff {s : Sampled κ ν} : Valid (.sampled s : Cache κ ν) ↔ s.Valid := by
  constructor
  · rintro ⟨policy, hpolicy⟩
    -- No other way to make a cache gives this one.
    cases policy <;> obtain ⟨t, hst, ht⟩ := hpolicy <;> cases hst
    exact ht
  · intro h
    exact ⟨.sampled, s, rfl, h⟩

/-- Whatever is done with a cache, its policy stays the same. -/
theorem lawful_for (policy : Policy) : Store.Lawful (ValidFor policy : Cache κ ν → Prop) := by
  cases policy with
  | lru => exact wraps_lru.lawful Lru.lawful
  | lfu => exact wraps_lfu.lawful Lfu.lawful
  | segmented => exact wraps_segmented.lawful (.of_forall Segmented.lawful)
  | adaptive => exact wraps_adaptive.lawful Adaptive.lawful
  | tinyLfu => exact wraps_tinyLfu.lawful TinyLfu.lawful
  | sampled => exact wraps_sampled.lawful Sampled.lawful

theorem lawful : Store.Lawful (Valid : Cache κ ν → Prop) := .of_forall lawful_for

/-! ## New caches -/

/-- A new cache has the policy of its recipe. -/
theorem create_holds_for {recipe : Recipe κ} (hc : create n recipe = .ok c) :
    Store.Holds (ValidFor recipe.policy) n [] c := by
  cases recipe with
  | lru => exact wraps_lru.create_holds Lru.create_holds hc
  | lfu => exact wraps_lfu.create_holds Lfu.create_holds hc
  | segmented ratio =>
    have hmade : ∀ {s : Segmented κ ν}, Segmented.create n ratio = .ok s →
        Store.Holds (fun s => ∃ ratio, Segmented.Valid ratio s) n [] s :=
      fun hs => (Segmented.create_holds hs).mono fun h => ⟨ratio, h⟩
    exact wraps_segmented.create_holds hmade hc
  | adaptive => exact wraps_adaptive.create_holds Adaptive.create_holds hc
  | tinyLfu hash seed => exact wraps_tinyLfu.create_holds TinyLfu.create_holds hc
  | sampled seed => exact wraps_sampled.create_holds Sampled.create_holds hc

theorem create_holds {recipe : Recipe κ} (hc : create n recipe = .ok c) :
    Store.Holds Valid n [] c :=
  (create_holds_for hc).mono fun h => ⟨_, h⟩

end Cache

end BoundedCache
