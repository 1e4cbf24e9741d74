import BoundedCache.Proofs.Cache.Recipe
import BoundedCache.Proofs.Store.InPlace

/-!
# A refused change of the settings changes nothing

The resize of a composite store goes through many steps: it evicts, gives new capacities to its
parts, each of which may refuse them, and moves entries between the parts. Here it runs in place,
step by step, and so do the resizes of the parts. It comes to the same as the plain resize: if any
step is refused, it is a check made before anything was evicted or moved. The parts accept their new
capacities whenever the store accepts its own.

## Main definitions

- `Lru.resizeInPlace`, …, `Sampled.resizeInPlace` — the resize of each kind of store, step by step
- `Sampled.setSamplesInPlace` — the same for the number of samples
- `Cache.resizeInPlace`, `Cache.setSamplesInPlace` — the same for a cache

## Main results

- `Segmented.Valid.resizeInPlace_commits`, `Adaptive.Valid.resizeInPlace_commits`,
  `TinyLfu.Valid.resizeInPlace_commits` — no part refuses its new capacity after an eviction
- `Cache.ValidFor.resizeInPlace_eq` — either all steps of a resize go through, or none does anything
-/

namespace BoundedCache

open InPlace

variable {κ ν : Type} [DecidableEq κ] [Hashable κ] {n : Nat}

/-! ## Stores of one part -/

namespace Lru

def resizeInPlace (n : Nat) : InPlace (Lru κ ν) (Entry κ ν) Unit := do
  require (requireCapacity n)
  evictDown n
  change fun c => { c with capacity := n }

theorem resizeInPlace_commits (c : Lru κ ν) (n : Nat) :
    (resizeInPlace n).Commits c (c.resize n) := by
  rw [resize_def]
  exact .require_bind fun _ _ => rfl

end Lru

namespace Lfu

def resizeInPlace (n : Nat) : InPlace (Lfu κ ν) (Entry κ ν) Unit := do
  require (requireCapacity n)
  evictDown n
  change fun c => { c with capacity := n }

theorem resizeInPlace_commits (c : Lfu κ ν) (n : Nat) :
    (resizeInPlace n).Commits c (c.resize n) := by
  rw [resize_def]
  exact .require_bind fun _ _ => rfl

end Lfu

namespace Sampled

def resizeInPlace (n : Nat) : InPlace (Sampled κ ν) (Entry κ ν) Unit := do
  require (requireCapacity n)
  let c ← read
  require (if n < c.samples then throw (.samplesExceedCapacity c.samples n) else pure ())
  evictDown n
  change fun c => { c with capacity := n }

theorem resizeInPlace_commits (c : Sampled κ ν) (n : Nat) :
    (resizeInPlace n).Commits c (c.resize n) := by
  rw [resize_def]
  refine .require_bind fun _ _ => .read_bind ?_
  by_cases hn : n < c.samples
  · rw [if_pos hn, if_pos hn]
    exact bind_of_error rfl
  · rw [if_neg hn, if_neg hn]
    exact rfl

/-- Changes how many entries an eviction inspects, step by step. -/
def setSamplesInPlace (samples : Nat) : InPlace (Sampled κ ν) (Entry κ ν) Unit := do
  let samples := max samples Policy.fewestSamples
  let c ← read
  require (if c.capacity < samples then throw (.samplesExceedCapacity samples c.capacity)
    else pure ())
  change fun c => { c with samples }

theorem setSamplesInPlace_commits (c : Sampled κ ν) (samples : Nat) :
    (setSamplesInPlace samples).Commits c ((c.setSamples samples).map fun d => ([], d)) := by
  refine .read_bind ?_
  rw [setSamples]
  by_cases hn : c.capacity < max samples Policy.fewestSamples
  · rw [if_pos hn, if_pos hn]
    exact bind_of_error rfl
  · rw [if_neg hn, if_neg hn]
    exact rfl

end Sampled

/-! ## Segments -/

namespace Segmented

variable {ratio : Float} {c : Segmented κ ν}

def resizeInPlace (n : Nat) : InPlace (Segmented κ ν) (Entry κ ν) Unit := do
  let c ← read
  let split ← require (layout n c.ratio)
  evictDown n
  inside probation (fun c probation => { c with probation }) (Lru.resizeInPlace n)
  change fun c => (c.guarded.size - split.guarded).repeat demote c
  inside guarded (fun c guarded => { c with guarded }) (Lru.resizeInPlace split.guarded)
  change fun c => { c with capacity := n }

theorem Valid.resizeInPlace_commits (h : c.Valid ratio) (n : Nat) :
    (resizeInPlace n).Commits c (c.resize n) := by
  rw [resize_def]
  refine .read_bind (.require_bind fun split hlayout => ?_)
  rw [h.ratio_eq] at hlayout
  obtain ⟨hn, hm, hsplit⟩ := layout_eq_ok_iff.1 hlayout
  refine .evictDown_bind (lawful ratio) h fun dropped e hevicted he hfits => ?_
  rw [show evictMany Segmented.evict (c.size - n) c = (dropped, e) from hevicted]
  -- Both segments have room for their entries by the time that they get their new capacities.
  obtain ⟨hprobation, hguarded, -⟩ := he.resizeSegments hn hm hfits
  rw [hsplit] at hguarded
  refine ⟨_, bind_eq_ok_iff.2 ⟨_, hprobation, bind_eq_ok_iff.2 ⟨_, hguarded, rfl⟩⟩, ?_⟩
  refine inside_bind (Lru.resizeInPlace_commits ..) hprobation ?_
  rw [change_bind]
  refine inside_bind (Lru.resizeInPlace_commits ..) hguarded ?_
  rfl

end Segmented

/-! ## Adaptive replacement -/

namespace Adaptive

variable {c : Adaptive κ ν}

def resizeInPlace (n : Nat) : InPlace (Adaptive κ ν) (Entry κ ν) Unit := do
  require (requireCapacity n)
  evictDown n
  inside recent (fun c recent => { c with recent }) (Lru.resizeInPlace n)
  inside frequent (fun c frequent => { c with frequent }) (Lfu.resizeInPlace n)
  inside recentGhosts (fun c recentGhosts => { c with recentGhosts }) (evictDown n)
  inside frequentGhosts (fun c frequentGhosts => { c with frequentGhosts }) (evictDown n)
  inside recentGhosts (fun c recentGhosts => { c with recentGhosts }) (Lru.resizeInPlace n)
  inside frequentGhosts (fun c frequentGhosts => { c with frequentGhosts }) (Lru.resizeInPlace n)
  change fun c => { c with capacity := n, target := min c.target n }

theorem Valid.resizeInPlace_commits (h : c.Valid) (n : Nat) :
    (resizeInPlace n).Commits c (c.resize n) := by
  rw [resize_def]
  refine .require_bind fun _ hcheck => ?_
  have hn := requireCapacity_eq_ok_iff.1 hcheck
  refine .evictDown_bind lawful h fun dropped e hevicted he hfits => ?_
  rw [show evictMany Adaptive.evict (c.size - n) c = (dropped, e) from hevicted]
  obtain ⟨_, _, _, _, hrecent, hfrequent, -⟩ := he.resize_of_fits hn hfits
  refine ⟨_, bind_eq_ok_iff.2 ⟨_, hrecent, bind_eq_ok_iff.2 ⟨_, hfrequent, bind_eq_ok_iff.2
    ⟨_, Lru.resize_of_pos hn, bind_eq_ok_iff.2 ⟨_, Lru.resize_of_pos hn, rfl⟩⟩⟩⟩, ?_⟩
  refine inside_bind (Lru.resizeInPlace_commits ..) hrecent ?_
  refine inside_bind (Lfu.resizeInPlace_commits ..) hfrequent ?_
  refine inside_bind (evictDown_commits ..) rfl ?_
  refine inside_bind (evictDown_commits ..) rfl ?_
  refine inside_bind (Lru.resizeInPlace_commits ..) (he.recentGhosts.resize_evictMany hn) ?_
  refine inside_bind (Lru.resizeInPlace_commits ..) (he.frequentGhosts.resize_evictMany hn) ?_
  rfl

end Adaptive

/-! ## Admission by popularity -/

namespace TinyLfu

variable {c : TinyLfu κ ν}

def resizeInPlace (n : Nat) : InPlace (TinyLfu κ ν) (Entry κ ν) Unit := do
  let parts ← require (layout n)
  let c ← read
  let popularity ← require (Popularity.create n c.seed)
  evictDown n
  drop fun c => (evictMany Segmented.evict (c.main.size - parts.main) c.main).map id
    fun main => { c with main }
  inside main (fun c main => { c with main }) (Segmented.resizeInPlace parts.main)
  drop fun c => spillMany parts.main (c.window.size - parts.window) c
  inside window (fun c window => { c with window }) (Lru.resizeInPlace parts.window)
  change fun c => { c with capacity := n, popularity }

theorem Valid.resizeInPlace_commits (h : c.Valid) (n : Nat) :
    (resizeInPlace n).Commits c (c.resize n) := by
  rw [resize_def]
  refine .require_bind fun parts hlayout => .read_bind (.require_bind fun popularity _ => ?_)
  refine .evictDown_bind lawful h fun dropped e hevicted he hfits => ?_
  rw [show evictMany TinyLfu.evict (c.size - n) c = (dropped, e) from hevicted]
  obtain ⟨hvalid, _, _, hmain, hwindow, -⟩ := he.resizeParts hlayout
  refine ⟨_, bind_eq_ok_iff.2 ⟨_, hmain, bind_eq_ok_iff.2 ⟨_, hwindow, rfl⟩⟩, ?_⟩
  rw [drop_bind]
  refine inside_bind (hvalid.resizeInPlace_commits _) hmain ?_
  rw [drop_bind]
  refine inside_bind (Lru.resizeInPlace_commits ..) hwindow ?_
  rfl

end TinyLfu

/-! ## Caches -/

namespace Cache

variable {c : Cache κ ν} {policy : Policy}

/-- The resize of a cache, step by step. -/
def resizeInPlace (c : Cache κ ν) (n : Nat) :
    Except SetupError Unit × List (Entry κ ν) × Cache κ ν :=
  match c with
  | .lru s => ((Lru.resizeInPlace n).run s).map id (.map id .lru)
  | .lfu s => ((Lfu.resizeInPlace n).run s).map id (.map id .lfu)
  | .segmented s => ((Segmented.resizeInPlace n).run s).map id (.map id .segmented)
  | .adaptive s => ((Adaptive.resizeInPlace n).run s).map id (.map id .adaptive)
  | .tinyLfu s => ((TinyLfu.resizeInPlace n).run s).map id (.map id .tinyLfu)
  | .sampled s => ((Sampled.resizeInPlace n).run s).map id (.map id .sampled)

/-- Changes how many entries an eviction inspects, step by step. Caches of other policies have no
such number. -/
def setSamplesInPlace (c : Cache κ ν) (samples : Nat) :
    Except SetupError Unit × List (Entry κ ν) × Cache κ ν :=
  match c with
  | .sampled s => ((Sampled.setSamplesInPlace samples).run s).map id (.map id .sampled)
  | c => (.ok (), [], c)

/-- What is made step by step of a store is made so of a cache. -/
theorem Wraps.map_run {σ : Type} [Store σ κ ν] {wrap : σ → Cache κ ν} (h : Wraps wrap)
    {x : InPlace σ (Entry κ ν) Unit} {s : σ} (hx : x.Commits s (Store.resize s n)) :
    (x.run s).map id (.map id wrap) = allOrNothing (wrap s) (Store.resize (wrap s) n) := by
  rw [h.resize_eq, ← map_allOrNothing, hx]

/-- Either all steps of a resize go through, or none of them does anything. -/
theorem ValidFor.resizeInPlace_eq (h : ValidFor policy c) (n : Nat) :
    c.resizeInPlace n = allOrNothing c (Store.resize c n) := by
  cases policy with
  | lru =>
    obtain ⟨s, rfl, -⟩ := h
    exact wraps_lru.map_run (s.resizeInPlace_commits n)
  | lfu =>
    obtain ⟨s, rfl, -⟩ := h
    exact wraps_lfu.map_run (s.resizeInPlace_commits n)
  | segmented =>
    obtain ⟨s, rfl, _, hs⟩ := h
    exact wraps_segmented.map_run (hs.resizeInPlace_commits n)
  | adaptive =>
    obtain ⟨s, rfl, hs⟩ := h
    exact wraps_adaptive.map_run (hs.resizeInPlace_commits n)
  | tinyLfu =>
    obtain ⟨s, rfl, hs⟩ := h
    exact wraps_tinyLfu.map_run (hs.resizeInPlace_commits n)
  | sampled =>
    obtain ⟨s, rfl, -⟩ := h
    exact wraps_sampled.map_run (s.resizeInPlace_commits n)

/-- A number of samples that is refused changes nothing, and no other one drops an entry. -/
theorem setSamplesInPlace_eq (c : Cache κ ν) (samples : Nat) :
    ∃ outcome, c.setSamplesInPlace samples = (outcome, [], Store.setSamples c samples) ∧
      ∀ cause, outcome = .error cause → Store.setSamples c samples = c := by
  cases c with
  | sampled s =>
    have hrun : (Sampled.setSamplesInPlace samples).run s = _ := s.setSamplesInPlace_commits samples
    have hset : Store.setSamples (sampled s) samples = sampled (Store.setSamples s samples) := rfl
    rw [setSamplesInPlace, hrun, hset]
    rcases hd : s.setSamples samples with cause | t
    · rw [Sampled.store_setSamples_of_error hd]
      exact ⟨_, rfl, fun _ _ => rfl⟩
    · rw [Sampled.store_setSamples_of_ok hd]
      refine ⟨_, rfl, ?_⟩
      rintro cause ⟨⟩
  | _ =>
    refine ⟨_, rfl, ?_⟩
    rintro cause ⟨⟩

end Cache

end BoundedCache
