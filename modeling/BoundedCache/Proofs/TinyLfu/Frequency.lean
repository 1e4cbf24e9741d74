import BoundedCache.Proofs.Popularity
import BoundedCache.Proofs.Store.Simulation
import BoundedCache.Proofs.TinyLfu.Admission

/-!
# Frequencies after any history

The popularity of keys depends on the uses that were recorded, and on nothing else: entries come and
go without leaving a trace in it. So a frequency can be told from the keys of the puts and lookups
since popularity was last forgotten.

## Main definitions

- `TinyLfu.SamePopularity` — nothing that a frequency depends on has changed
- `TinyLfu.recordedKeys` — the keys recorded in some turns, since popularity was last forgotten

## Main results

- `TinyLfu.Follows.perform` — one request keeps the estimator in step with the recorded keys
- `TinyLfu.actAll_never_underestimates` — the frequencies after any actions
-/

namespace BoundedCache

namespace TinyLfu

open Popularity

variable {κ ν : Type} [DecidableEq κ] [Hashable κ] {c d : TinyLfu κ ν} {k : κ} {v : ν}

/-! ## What leaves popularity alone -/

/-- Nothing has changed that a frequency depends on. -/
structure SamePopularity (c d : TinyLfu κ ν) : Prop where
  capacity_eq : d.capacity = c.capacity
  hash_eq : d.hash = c.hash
  popularity_eq : d.popularity = c.popularity

namespace SamePopularity

theorem refl (c : TinyLfu κ ν) : SamePopularity c c := ⟨rfl, rfl, rfl⟩

theorem trans {b : TinyLfu κ ν} (h : SamePopularity c d) (h' : SamePopularity d b) :
    SamePopularity c b :=
  ⟨h'.capacity_eq.trans h.capacity_eq, h'.hash_eq.trans h.hash_eq,
    h'.popularity_eq.trans h.popularity_eq⟩

end SamePopularity

theorem samePopularity_contest (c : TinyLfu κ ν) (e : Entry κ ν) :
    SamePopularity c (c.contest e).2 := by
  rw [contest_def]
  split
  · exact ⟨rfl, rfl, rfl⟩
  split
  · split <;> exact ⟨rfl, rfl, rfl⟩
  · exact .refl c

theorem samePopularity_insertNew (c : TinyLfu κ ν) (k : κ) (v : ν) :
    SamePopularity c (c.insertNew k v).2 := by
  rw [insertNew_def]
  rcases c.window.makeRoom with ⟨_ | candidate, w⟩
  · exact ⟨rfl, rfl, rfl⟩
  · have hcontest := samePopularity_contest { c with window := (w.put k v).2 } candidate
    exact ⟨hcontest.capacity_eq, hcontest.hash_eq, hcontest.popularity_eq⟩

/-- A put records its key, and leaves popularity alone after that. -/
theorem samePopularity_put (c : TinyLfu κ ν) (k : κ) (v : ν) :
    SamePopularity (c.record k) (c.put k v).2 := by
  rw [put_def]
  dsimp only
  split
  · exact ⟨rfl, rfl, rfl⟩
  split
  · exact ⟨rfl, rfl, rfl⟩
  · exact samePopularity_insertNew (c.record k) k v

/-- A lookup records its key, and leaves popularity alone after that. -/
theorem samePopularity_get (c : TinyLfu κ ν) (k : κ) :
    SamePopularity (c.record k) (c.get k).2 := by
  rw [get_def]
  dsimp only
  split <;> exact ⟨rfl, rfl, rfl⟩

theorem samePopularity_remove (c : TinyLfu κ ν) (k : κ) : SamePopularity c (c.remove k).2 := by
  rw [remove_eq]
  exact ⟨rfl, rfl, rfl⟩

theorem samePopularity_evict (c : TinyLfu κ ν) : SamePopularity c c.evict.2 := by
  rw [evict_eq]
  exact ⟨rfl, rfl, rfl⟩

theorem samePopularity_evictMany (n : Nat) (c : TinyLfu κ ν) :
    SamePopularity c (evictMany evict n c).2 :=
  evictMany_keeps (fun d hd => hd.trans (samePopularity_evict d)) (.refl c) n

theorem samePopularity_spill (m : Nat) (c : TinyLfu κ ν) : SamePopularity c (c.spill m).2 := by
  rw [spill_def]
  split
  · exact ⟨rfl, rfl, rfl⟩
  · dsimp only
    split <;> exact ⟨rfl, rfl, rfl⟩

theorem samePopularity_spillMany (m n : Nat) (c : TinyLfu κ ν) :
    SamePopularity c (c.spillMany m n).2 := by
  induction n generalizing c with
  | zero => exact .refl c
  | succ n ih => exact (samePopularity_spill m c).trans (ih _)

/-- A change of the capacity forgets the popularity of all keys. -/
theorem popularity_resize {n : Nat} {dropped : List (Entry κ ν)}
    (h : c.resize n = .ok (dropped, d)) :
    d.capacity = n ∧ d.hash = c.hash ∧ Popularity.create n c.seed = .ok d.popularity := by
  rw [resize_def] at h
  obtain ⟨parts, -, h⟩ := bind_eq_ok_iff.1 h
  obtain ⟨popularity, hpopularity, h⟩ := bind_eq_ok_iff.1 h
  obtain ⟨⟨_, main⟩, -, h⟩ := bind_eq_ok_iff.1 h
  obtain ⟨⟨_, window⟩, -, h⟩ := bind_eq_ok_iff.1 h
  cases h
  refine ⟨rfl, ?_, hpopularity⟩
  exact (samePopularity_spillMany _ _ _).hash_eq.trans (samePopularity_evictMany _ c).hash_eq

/-! ## Recorded keys -/

/-- The keys that count as recorded after a request. -/
def recordedAfter (used : List κ) (request : Request κ ν) (reply : Reply κ ν) : List κ :=
  match request, reply with
  | .put key _, _ => used ++ [key]
  | .get key, _ => used ++ [key]
  | .clear, _ => []
  | .drain, _ => []
  | .resize _, .done => []
  | _, _ => used

/-- The keys recorded in some turns, since popularity was last forgotten. -/
def recordedKeys (turns : List (Observed.Turn κ ν)) : List κ :=
  turns.foldl (fun used turn => recordedAfter used turn.request turn.reply) []

/-- The estimator is in step with the keys that were recorded. -/
structure Follows (hash : KeyHash κ) (used : List κ) (c : TinyLfu κ ν) : Prop where
  capacity_pos : 0 < c.capacity
  hash_eq : c.hash = hash
  tracks : Tracks (samplesPerEntry * c.capacity) c.popularity
    (Exact.ofRecords (samplesPerEntry * c.capacity) (used.map hash))

namespace Follows

variable {hash : KeyHash κ} {used : List κ}

/-- A new estimator is in step with no keys at all. -/
theorem of_new {seed : UInt64} (hhash : c.hash = hash)
    (hpopularity : Popularity.create c.capacity seed = .ok c.popularity) : Follows hash [] c where
  capacity_pos := pos_of_create hpopularity
  hash_eq := hhash
  tracks := tracks_create hpopularity

theorem of_same (h : Follows hash used c) (hd : SamePopularity c d) : Follows hash used d where
  capacity_pos := hd.capacity_eq ▸ h.capacity_pos
  hash_eq := hd.hash_eq.trans h.hash_eq
  tracks := by
    rw [hd.capacity_eq, hd.popularity_eq]
    exact h.tracks

theorem record (h : Follows hash used c) (k : κ) : Follows hash (used ++ [k]) (c.record k) := by
  obtain ⟨hpos, rfl, htracks⟩ := h
  refine ⟨hpos, rfl, ?_⟩
  have hperiod : 0 < samplesPerEntry * c.capacity := Nat.mul_pos (by decide) hpos
  rw [List.map_append, List.map_singleton, Exact.ofRecords_concat]
  exact htracks.record hperiod (c.hash k)

theorem clear (h : Follows hash used c) : Follows hash [] c.clear where
  capacity_pos := h.capacity_pos
  hash_eq := h.hash_eq
  tracks := h.tracks.clear

/-- One request keeps the estimator in step with the recorded keys. -/
theorem perform (h : Follows hash used c) (request : Request κ ν) :
    Follows hash (recordedAfter used request (Store.perform c request).1.reply)
      (Store.perform c request).2 := by
  cases request with
  | put key value => exact (h.record key).of_same (samePopularity_put c key value)
  | get key => exact (h.record key).of_same (samePopularity_get c key)
  | peek key => exact h
  | contains key => exact h
  | remove key => exact h.of_same (samePopularity_remove c key)
  | evict => exact h.of_same (samePopularity_evict c)
  | clear => exact h.clear
  | drain =>
    rw [Store.perform_drain, Store.drain_eq]
    exact (h.of_same (samePopularity_evictMany _ c)).clear
  | resize n =>
    rw [Store.perform_resize]
    rcases hresize : Store.resize c n with cause | ⟨dropped, d⟩
    · exact h
    · obtain ⟨rfl, hhash, hpopularity⟩ := popularity_resize hresize
      exact .of_new (hhash.trans h.hash_eq) hpopularity

/-- Any turns keep the estimator in step with the recorded keys. -/
theorem actAll {o : Observed (TinyLfu κ ν)} (h : Follows hash [] o.store)
    (actions : List (Observed.Action κ ν)) :
    Follows hash (recordedKeys (o.actAll actions).1) (o.actAll actions).2.store := by
  have hstart : Follows hash (recordedKeys ([] : List (Observed.Turn κ ν))) o.store := h
  refine Observed.actAll_keeps (P := fun turns s => Follows hash (recordedKeys turns) s)
    (fun {turns s} hs turn hreply _ => ?_) (fun hs _ => hs) hstart actions
  have hnext := hs.perform turn.request
  rw [← hreply] at hnext
  rw [recordedKeys, List.foldl_append]
  exact hnext

end Follows

theorem create_popularity {n : Nat} {hash : KeyHash κ} {seed : UInt64}
    (hc : create n hash seed = .ok c) :
    c.capacity = n ∧ c.hash = hash ∧ Popularity.create n seed = .ok c.popularity := by
  obtain ⟨parts, -, hc⟩ := bind_eq_ok_iff.1 hc
  obtain ⟨_, -, hc⟩ := bind_eq_ok_iff.1 hc
  obtain ⟨_, -, hc⟩ := bind_eq_ok_iff.1 hc
  obtain ⟨popularity, hpopularity, hc⟩ := bind_eq_ok_iff.1 hc
  cases hc
  exact ⟨rfl, rfl, hpopularity⟩

/-- Whatever was done with a new store, the frequency of a key is at least what an estimator that
keeps all hashes apart knows of it, and so at least the number of its uses since the last aging, as
far as that goes up to 16. The samples are the uses since popularity was forgotten, counted anew in
each period. -/
theorem actAll_never_underestimates {n : Nat} {hash : KeyHash κ} {seed : UInt64}
    (hc : create n hash seed = .ok c) (listener : Option Nat)
    (actions : List (Observed.Action κ ν)) :
    let run := Observed.actAll { store := c, listener } actions
    let s := run.2.store
    let used := recordedKeys run.1
    let period := 8 * s.capacity
    let reference := Exact.ofRecords period (used.map hash)
    s.popularity.samples = used.length % period ∧
      ∀ k, reference.count (hash k) + (reference.seen (hash k)).toNat ≤ s.frequency k ∧
        s.frequency k ≤ 16 ∧
        min ((Exact.sinceAging period used).count k) 16 ≤ s.frequency k := by
  intro run s used period reference
  have hnew : Follows hash [] c := by
    obtain ⟨rfl, hhash, hpopularity⟩ := create_popularity hc
    exact .of_new hhash hpopularity
  obtain ⟨-, hhash, htracks⟩ : Follows hash used s :=
    Follows.actAll (o := { store := c, listener }) hnew actions
  have hfrequency : ∀ k, s.frequency k = s.popularity.frequency (hash k) := by
    intro k
    rw [frequency, hhash]
  constructor
  · rw [htracks.samples_eq, Exact.accesses_ofRecords, List.length_map]
    rfl
  · intro k
    have hlevel : reference.level (hash k) ≤ s.frequency k := by
      rw [hfrequency]
      exact htracks.level_le_frequency (hash k)
    refine ⟨hlevel, ?_, ?_⟩
    · rw [hfrequency]
      exact frequency_le s.popularity (hash k)
    · have hcount : (Exact.sinceAging period used).count k ≤
          (Exact.sinceAging period (used.map hash)).count (hash k) := by
        rw [← Exact.map_sinceAging]
        exact List.count_le_count_map
      have hleast : min ((Exact.sinceAging period (used.map hash)).count (hash k)) 16 ≤
          reference.level (hash k) := Exact.min_count_le_level period (used.map hash) (hash k)
      omega

/-- A key that is put and looked up in a new store has been seen twice. -/
theorem actAll_never_underestimates_twice :
    ∃ c : TinyLfu Nat Nat, create 3 Nat.toUInt64 5 = .ok c ∧
      let s := (Observed.actAll { store := c } [.request (.put 1 10), .request (.get 1)]).2.store
      s.popularity.samples = 2 ∧ 2 ≤ s.frequency 1 := by
  have hlayout : layout 3 = .ok ⟨windowSize 3 windowRatio, 3 - windowSize 3 windowRatio⟩ :=
    bind_eq_ok_iff.2 ⟨(), requireCapacity_eq_ok_iff.2 (by decide),
      ite_throw_eq_ok_iff.2 ⟨by decide +kernel, rfl⟩⟩
  obtain ⟨c, hc⟩ := exists_create (κ := Nat) (ν := Nat) hlayout Nat.toUInt64 5
  refine ⟨c, hc, ?_⟩
  obtain ⟨hsamples, hfrequency⟩ :=
    actAll_never_underestimates hc none [.request (.put 1 10), .request (.get 1)]
  obtain ⟨-, -, hused⟩ := hfrequency 1
  have hstore : (Observed.actAll { store := c }
      [.request (.put 1 10), .request (.get 1)]).2.store = ((c.put 1 10).2.get 1).2 := by
    simp only [Observed.actAll, Observed.act, Observed.store_perform]
    rfl
  have hcapacity : ((c.put 1 10).2.get 1).2.capacity = 3 :=
    (samePopularity_get (c.put 1 10).2 1).capacity_eq.trans
      ((samePopularity_put c 1 10).capacity_eq.trans (create_popularity hc).1)
  have hperiod : 8 * ((c.put 1 10).2.get 1).2.capacity = 24 := congrArg (8 * ·) hcapacity
  have htwice : min ((Exact.sinceAging 24 [1, 1]).count 1) 16 = 2 := by decide
  rw [hstore] at hsamples hused ⊢
  rw [hperiod] at hsamples hused
  exact ⟨hsamples, htwice ▸ hused⟩

end TinyLfu

end BoundedCache
