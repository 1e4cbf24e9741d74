import BoundedCache.Proofs.Lru.Order
import BoundedCache.Proofs.TinyLfu.Frequency

/-!
# What outlasts a clear

A cleared store keeps the sizes of its parts, its hash and its seed, and nothing else. No operation
but a resize touches these, and a resize makes them what a new store of that capacity would have. So
a clear leaves a new store behind, whatever was done before.

## Main results

- `Sketch.clear_update`, `Membership.clear_add` — counts and members are forgotten
- `Popularity.clear_record` — so is whatever was recorded
- `TinyLfu.clear_perform` — no request but a resize changes what a clear leaves
- `TinyLfu.create_clear_perform` — it leaves what a new store would be, at any time
-/

namespace BoundedCache

/-! ## Sketches and filters -/

namespace Sketch

variable {s : Sketch}

/-- A row of zeros is known by its seed and its size. -/
theorem Row.mapWords_zero (row : Row) :
    row.mapWords (fun _ => 0) = Row.zeros row.words.size row.seed := by
  rw [mapWords, zeros, Array.map_const']

theorem clear_eq (s : Sketch) :
    s.clear = ⟨s.rows.map fun row => Row.zeros row.words.size row.seed⟩ := by
  rw [clear]
  simp only [Row.mapWords_zero]

/-- An update changes counts only. -/
theorem clear_update (s : Sketch) (u : Update) : (s.update u).clear = s.clear := by
  rw [clear_eq, clear_eq, rows_update, List.map_map]
  simp only [Function.comp_def, Row.size_update, Row.seed_update]

theorem clear_of_create {size errorRange : Nat} {errorRate : Float} {seed : UInt64}
    (hs : create size errorRange errorRate seed = .ok s) : s.clear = s := by
  obtain ⟨-, hzeros⟩ := rows_create hs
  have hrows : s.rows.map (fun row => Row.zeros row.words.size row.seed) = s.rows := by
    refine (List.map_congr_left fun row hrow => ?_).trans (List.map_id _)
    obtain ⟨rowSeed, rfl⟩ := hzeros row hrow
    exact congrArg (Row.zeros · rowSeed) Array.size_replicate
  rw [clear_eq, hrows]

end Sketch

namespace Membership

variable {f : Membership}

/-- A cleared filter is known by its seeds and its size. -/
theorem clear_eq (f : Membership) : f.clear = ⟨Array.replicate f.words.size 0, f.seeds⟩ := by
  rw [clear, Array.map_const']

theorem clear_clear (f : Membership) : f.clear.clear = f.clear := by
  rw [clear_eq f.clear, size_clear, clear_eq]

/-- An addition sets bits only. -/
theorem clear_add (f : Membership) (hash : UInt64) : (f.add hash).clear = f.clear := by
  obtain ⟨hsize, hseeds⟩ := layout_foldl_setBit f (f.positions hash)
  rw [clear_eq, clear_eq, add, hsize, hseeds]

theorem clear_of_create {capacity : Nat} {rate : Float} {seed : UInt64}
    (hf : create capacity rate seed = .ok f) : f.clear = f := by
  obtain ⟨_, -, hf⟩ := bind_eq_ok_iff.1 hf
  obtain ⟨_, -, hf⟩ := bind_eq_ok_iff.1 hf
  cases hf
  rw [clear_eq, Array.size_replicate]

end Membership

/-! ## Popularity -/

namespace Popularity

variable {p : Popularity}

theorem clear_clear (p : Popularity) : p.clear.clear = p.clear := by
  have hsketch : p.sketch.clear.clear = p.sketch.clear := p.sketch.clear_update .clear
  rw [clear, clear, hsketch, Membership.clear_clear]

theorem clear_age (p : Popularity) : p.age.clear = p.clear := by
  have hsketch : (p.sketch.attenuate 2).clear = p.sketch.clear :=
    p.sketch.clear_update (.attenuate 2)
  rw [clear, clear, age, hsketch, Membership.clear_clear]

theorem clear_advance (p : Popularity) : p.advance.clear = p.clear := by
  rw [advance]
  dsimp only
  split
  · exact clear_age _
  · rfl

theorem clear_note (p : Popularity) (hash : UInt64) : (p.note hash).clear = p.clear := by
  have hsketch : (p.sketch.add hash 1).clear = p.sketch.clear := p.sketch.clear_update (.add hash 1)
  rw [note]
  split
  · rw [clear, clear, hsketch]
  · rw [clear, clear, Membership.clear_add]

/-- Nothing that is recorded outlasts a clear. -/
theorem clear_record (p : Popularity) (hash : UInt64) : (p.record hash).clear = p.clear := by
  rw [record_eq, clear_note, clear_advance]

theorem clear_of_create {capacity : Nat} {seed : UInt64} (hp : create capacity seed = .ok p) :
    p.clear = p := by
  obtain ⟨sketch, hsketch, hp⟩ := bind_eq_ok_iff.1 hp
  obtain ⟨doorkeeper, hdoorkeeper, hp⟩ := bind_eq_ok_iff.1 hp
  cases hp
  rw [clear, Sketch.clear_of_create hsketch, Membership.clear_of_create hdoorkeeper]

end Popularity

/-! ## The main part -/

namespace Segmented

variable {κ ν : Type} [DecidableEq κ] [Hashable κ] {c : Segmented κ ν} {ratio : Float}

/-- A cleared store is known by its sizes and its ratio. -/
theorem clear_congr {c d : Segmented κ ν} (hcapacity : d.capacity = c.capacity)
    (hratio : d.ratio = c.ratio) (hprobation : d.probation.clear = c.probation.clear)
    (hguarded : d.guarded.clear = c.guarded.clear) : d.clear = c.clear := by
  rw [clear, clear, hcapacity, hratio, hprobation, hguarded]

theorem clear_demote (c : Segmented κ ν) : c.demote.clear = c.clear := by
  have hevict := c.guarded.clear_evict
  rw [demote]
  generalize c.guarded.evict = q at hevict ⊢
  obtain ⟨_ | e, g⟩ := q
  · exact clear_congr rfl rfl rfl hevict
  · exact clear_congr rfl rfl (Lru.clear_put ..) hevict

theorem clear_promote (c : Segmented κ ν) (k : κ) (v : ν) : (c.promote k v).clear = c.clear := by
  have hput (d : Segmented κ ν) : clear { d with guarded := (d.guarded.put k v).2 } = d.clear :=
    clear_congr rfl rfl rfl (Lru.clear_put ..)
  rw [promote, hput]
  split
  · exact c.clear_demote
  · rfl

theorem clear_evict (c : Segmented κ ν) : c.evict.2.clear = c.clear := by
  have hevict := c.probation.clear_evict
  rw [evict]
  generalize c.probation.evict = q at hevict ⊢
  obtain ⟨_ | e, p⟩ := q
  · exact clear_congr rfl rfl hevict (Lru.clear_evict ..)
  · exact clear_congr rfl rfl hevict rfl

theorem clear_makeRoom (c : Segmented κ ν) : c.makeRoom.2.clear = c.clear := by
  rw [makeRoom]
  split
  · exact c.clear_evict
  · rfl

theorem clear_put (c : Segmented κ ν) (k : κ) (v : ν) : (c.put k v).2.clear = c.clear := by
  have hremove := c.probation.clear_remove k
  rw [put_def]
  split
  · exact clear_congr rfl rfl rfl (Lru.clear_put ..)
  · generalize c.probation.remove k = q at hremove ⊢
    obtain ⟨_ | w, p⟩ := q
    · have hput (d : Segmented κ ν) :
          clear { d with probation := (d.probation.put k v).2 } = d.clear :=
        clear_congr rfl rfl (Lru.clear_put ..) rfl
      refine (hput _).trans ((clear_makeRoom _).trans ?_)
      exact clear_congr rfl rfl hremove rfl
    · exact (clear_promote ..).trans (clear_congr rfl rfl hremove rfl)

theorem clear_get (c : Segmented κ ν) (k : κ) : (c.get k).2.clear = c.clear := by
  have hremove := c.probation.clear_remove k
  rw [get_def]
  split
  · exact clear_congr rfl rfl rfl (Lru.clear_get ..)
  · generalize c.probation.remove k = q at hremove ⊢
    obtain ⟨_ | w, p⟩ := q
    · exact clear_congr rfl rfl hremove rfl
    · exact (clear_promote ..).trans (clear_congr rfl rfl hremove rfl)

theorem clear_remove (c : Segmented κ ν) (k : κ) : (c.remove k).2.clear = c.clear := by
  have hremove := c.probation.clear_remove k
  rw [remove]
  generalize c.probation.remove k = q at hremove ⊢
  obtain ⟨_ | w, p⟩ := q
  · exact clear_congr rfl rfl hremove (Lru.clear_remove ..)
  · exact clear_congr rfl rfl hremove rfl

theorem clear_of_create {n : Nat} (hc : create n ratio = .ok c) : c.clear = c := by
  obtain ⟨_, -, hc⟩ := bind_eq_ok_iff.1 hc
  obtain ⟨_, -, hc⟩ := bind_eq_ok_iff.1 hc
  obtain ⟨_, hprobation, hc⟩ := bind_eq_ok_iff.1 hc
  obtain ⟨_, hguarded, hc⟩ := bind_eq_ok_iff.1 hc
  obtain ⟨-, rfl⟩ := Lru.create_eq_ok_iff.1 hprobation
  obtain ⟨-, rfl⟩ := Lru.create_eq_ok_iff.1 hguarded
  cases hc
  rfl

/-- A clear leaves a new store. -/
theorem Valid.create_clear (h : c.Valid ratio) (hratio : 0 < ratio ∧ ratio < 1) :
    create c.capacity ratio = .ok c.clear := by
  have hguarded := h.fits.joined.right.capacity_pos
  rw [h.fits.guarded_capacity] at hguarded
  rw [create_eq_ok hratio h.capacity_pos hguarded, Segmented.clear, Lru.clear, Lru.clear,
    h.fits.probation_capacity, h.fits.guarded_capacity, h.ratio_eq]

end Segmented

/-! ## The store -/

namespace TinyLfu

variable {κ ν : Type} [DecidableEq κ] [Hashable κ] {c d : TinyLfu κ ν}

/-- A cleared store is known by its parts, its hash and its seed. -/
theorem clear_congr (hsame : SamePopularity c d) (hseed : d.seed = c.seed)
    (hwindow : d.window.clear = c.window.clear) (hmain : d.main.clear = c.main.clear) :
    d.clear = c.clear := by
  rw [clear, clear, hsame.capacity_eq, hsame.hash_eq, hsame.popularity_eq, hseed, hwindow, hmain]

theorem clear_record (c : TinyLfu κ ν) (k : κ) : (c.record k).clear = c.clear := by
  rw [clear, clear, record, Popularity.clear_record]

theorem clear_putMain (c : TinyLfu κ ν) (e : Entry κ ν) : (c.putMain e).clear = c.clear :=
  clear_congr ⟨rfl, rfl, rfl⟩ rfl rfl (Segmented.clear_put ..)

theorem clear_contest (c : TinyLfu κ ν) (e : Entry κ ν) : (c.contest e).2.clear = c.clear := by
  have hevict := c.main.clear_evict
  rw [contest_def]
  split
  · exact c.clear_putMain e
  split
  · generalize c.main.evict = q at hevict ⊢
    obtain ⟨_ | dropped, m⟩ := q
    · exact clear_congr ⟨rfl, rfl, rfl⟩ rfl rfl hevict
    · exact (clear_putMain ..).trans (clear_congr ⟨rfl, rfl, rfl⟩ rfl rfl hevict)
  · rfl

theorem clear_insertNew (c : TinyLfu κ ν) (k : κ) (v : ν) :
    (c.insertNew k v).2.clear = c.clear := by
  have hroom := c.window.clear_makeRoom
  rw [insertNew_def]
  generalize c.window.makeRoom = q at hroom ⊢
  obtain ⟨candidate, w⟩ := q
  have hwindow : clear { c with window := (w.put k v).2 } = c.clear :=
    clear_congr ⟨rfl, rfl, rfl⟩ rfl ((Lru.clear_put ..).trans hroom) rfl
  cases candidate with
  | none => exact hwindow
  | some candidate => exact (clear_contest ..).trans hwindow

theorem clear_put (c : TinyLfu κ ν) (k : κ) (v : ν) : (c.put k v).2.clear = c.clear := by
  rw [← c.clear_record k, put_def]
  dsimp only
  split
  · exact clear_congr ⟨rfl, rfl, rfl⟩ rfl (Lru.clear_put ..) rfl
  split
  · exact clear_putMain ..
  · exact clear_insertNew ..

theorem clear_get (c : TinyLfu κ ν) (k : κ) : (c.get k).2.clear = c.clear := by
  rw [← c.clear_record k, get_def]
  dsimp only
  split
  · exact clear_congr ⟨rfl, rfl, rfl⟩ rfl (Lru.clear_get ..) rfl
  · exact clear_congr ⟨rfl, rfl, rfl⟩ rfl rfl (Segmented.clear_get ..)

theorem clear_remove (c : TinyLfu κ ν) (k : κ) : (c.remove k).2.clear = c.clear := by
  have hremove := c.window.clear_remove k
  rw [remove]
  generalize c.window.remove k = q at hremove ⊢
  obtain ⟨_ | w, p⟩ := q
  · exact clear_congr ⟨rfl, rfl, rfl⟩ rfl hremove (Segmented.clear_remove ..)
  · exact clear_congr ⟨rfl, rfl, rfl⟩ rfl hremove rfl

theorem clear_evict (c : TinyLfu κ ν) : c.evict.2.clear = c.clear := by
  have hevict := c.main.clear_evict
  rw [evict]
  generalize c.main.evict = q at hevict ⊢
  obtain ⟨_ | e, m⟩ := q
  · exact clear_congr ⟨rfl, rfl, rfl⟩ rfl (Lru.clear_evict ..) hevict
  · exact clear_congr ⟨rfl, rfl, rfl⟩ rfl rfl hevict

theorem clear_evictMany (n : Nat) (c : TinyLfu κ ν) : (evictMany evict n c).2.clear = c.clear := by
  have hevict : ∀ d : TinyLfu κ ν, d.clear = c.clear → d.evict.2.clear = c.clear :=
    fun d hd => d.clear_evict.trans hd
  exact evictMany_keeps hevict rfl n

theorem clear_clear (c : TinyLfu κ ν) : c.clear.clear = c.clear := by
  rw [clear, clear, Popularity.clear_clear]
  rfl

theorem clear_spill (m : Nat) (c : TinyLfu κ ν) : (c.spill m).2.clear = c.clear := by
  have hevict := c.window.clear_evict
  rw [spill_def]
  generalize c.window.evict = q at hevict ⊢
  obtain ⟨_ | e, w⟩ := q
  · exact clear_congr ⟨rfl, rfl, rfl⟩ rfl hevict rfl
  · have hwindow : clear { c with window := w } = c.clear :=
      clear_congr ⟨rfl, rfl, rfl⟩ rfl hevict rfl
    dsimp only
    split
    · exact (clear_putMain ..).trans hwindow
    · exact hwindow

theorem clear_spillMany (m n : Nat) (c : TinyLfu κ ν) : (c.spillMany m n).2.clear = c.clear := by
  induction n generalizing c with
  | zero => rfl
  | succ n ih => exact (ih _).trans (c.clear_spill m)

/-- No request but a resize changes what a clear leaves. -/
theorem clear_perform (c : TinyLfu κ ν) {request : Request κ ν}
    (hrequest : ∀ n, request ≠ .resize n) : (Store.perform c request).2.clear = c.clear := by
  cases request with
  | put key value => exact c.clear_put key value
  | get key => exact c.clear_get key
  | peek key => rfl
  | contains key => rfl
  | remove key => exact c.clear_remove key
  | evict => exact c.clear_evict
  | clear => exact c.clear_clear
  | drain =>
    rw [Store.perform_drain, Store.drain_eq]
    exact (clear_clear _).trans (c.clear_evictMany _)
  | resize n => exact absurd rfl (hrequest n)

/-! ## New stores -/

variable {n : Nat} {hash : KeyHash κ} {seed : UInt64}

/-- What a new store is made of. -/
theorem create_eq_ok_iff : create n hash seed = .ok c ↔
    ∃ parts, layout n = .ok parts ∧ Lru.create parts.window = .ok c.window ∧
      Segmented.create parts.main Segmented.defaultRatio = .ok c.main ∧
      Popularity.create n seed = .ok c.popularity ∧ c.capacity = n ∧ c.hash = hash ∧
      c.seed = seed := by
  constructor
  · intro hc
    obtain ⟨parts, hlayout, hc⟩ := bind_eq_ok_iff.1 hc
    obtain ⟨_, hwindow, hc⟩ := bind_eq_ok_iff.1 hc
    obtain ⟨_, hmain, hc⟩ := bind_eq_ok_iff.1 hc
    obtain ⟨_, hpopularity, hc⟩ := bind_eq_ok_iff.1 hc
    cases hc
    exact ⟨parts, hlayout, hwindow, hmain, hpopularity, rfl, rfl, rfl⟩
  · rintro ⟨parts, hlayout, hwindow, hmain, hpopularity, rfl, rfl, rfl⟩
    exact bind_eq_ok_iff.2 ⟨parts, hlayout, bind_eq_ok_iff.2 ⟨_, hwindow,
      bind_eq_ok_iff.2 ⟨_, hmain, bind_eq_ok_iff.2 ⟨_, hpopularity, rfl⟩⟩⟩⟩

/-- A new store is clear. -/
theorem clear_of_create (hc : create n hash seed = .ok c) : c.clear = c := by
  obtain ⟨_, -, hwindow, hmain, hpopularity, -⟩ := create_eq_ok_iff.1 hc
  obtain ⟨-, hwindow⟩ := Lru.create_eq_ok_iff.1 hwindow
  have hwindow' : c.window.clear = c.window := by
    rw [← hwindow]
    rfl
  rw [clear, hwindow', Segmented.clear_of_create hmain, Popularity.clear_of_create hpopularity]

/-- A clear leaves a new store if the window has the size that a new one would have, and so has the
estimator. -/
theorem Valid.create_clear (h : c.Valid) {parts : Layout} (hlayout : layout c.capacity = .ok parts)
    (hwindow : c.window.capacity = parts.window)
    (hpopularity : Popularity.create c.capacity c.seed = .ok c.popularity.clear) :
    create c.capacity c.hash c.seed = .ok c.clear := by
  obtain ⟨hpos, -, hsum, -⟩ := layout_facts hlayout
  have hsplit := h.capacity_eq
  have hmain : parts.main = c.main.capacity := by omega
  refine create_eq_ok_iff.2 ⟨parts, hlayout, ?_, ?_, hpopularity, rfl, rfl, rfl⟩
  · exact Lru.create_eq_ok_iff.2 ⟨hpos, congrArg Lru.empty hwindow.symm⟩
  · rw [hmain]
    exact h.joined.right.create_clear (by decide +kernel)

/-- A resize leaves the sizes and the estimator of a new store of that capacity. -/
theorem create_clear_resize (h : c.Valid) (hc : create c.capacity hash seed = .ok c.clear)
    {dropped : List (Entry κ ν)} (hd : c.resize n = .ok (dropped, d)) :
    create n hash seed = .ok d.clear := by
  obtain ⟨-, -, -, -, -, -, hhash, hseed⟩ := create_eq_ok_iff.1 hc
  obtain ⟨_, -, hholds⟩ := h.resize hd
  rw [resize_def] at hd
  obtain ⟨parts, hlayout, hd⟩ := bind_eq_ok_iff.1 hd
  obtain ⟨popularity, hpopularity, hd⟩ := bind_eq_ok_iff.1 hd
  obtain ⟨⟨_, main⟩, -, hd⟩ := bind_eq_ok_iff.1 hd
  obtain ⟨⟨_, window⟩, hwindow, hd⟩ := bind_eq_ok_iff.1 hd
  -- Entries that are evicted or spilled on the way change neither the hash nor the seed.
  let p := evictMany evict (c.size - n) c
  let q := spillMany parts.main (p.2.window.size - parts.window) { p.2 with main }
  have hevict : p.2.clear = c.clear := c.clear_evictMany _
  have hspill : q.2.clear = clear { p.2 with main } := clear_spillMany ..
  have hhash' : q.2.hash = hash :=
    (congrArg TinyLfu.hash hspill).trans ((congrArg TinyLfu.hash hevict).trans hhash)
  have hseed' : q.2.seed = seed :=
    (congrArg TinyLfu.seed hspill).trans ((congrArg TinyLfu.seed hevict).trans hseed)
  have hpopularity' : Popularity.create n q.2.seed = .ok popularity.clear := by
    rw [Popularity.clear_of_create hpopularity, hseed', ← hseed]
    exact hpopularity
  obtain ⟨rfl, rfl⟩ := Prod.mk.inj (Except.ok.inj hd)
  rw [← hhash', ← hseed']
  exact hholds.inv.create_clear hlayout (Lru.capacity_of_resize hwindow) hpopularity'

/-- Whatever a request does, a clear leaves a new store after it if it does before. -/
theorem create_clear_perform (h : c.Valid) (hc : create c.capacity hash seed = .ok c.clear)
    (request : Request κ ν) :
    create (Store.perform c request).2.capacity hash seed =
      .ok (Store.perform c request).2.clear := by
  by_cases hrequest : ∃ n, request = .resize n
  · obtain ⟨n, rfl⟩ := hrequest
    rw [Store.perform_resize]
    rcases hresize : Store.resize c n with cause | ⟨dropped, t⟩
    · exact hc
    · obtain ⟨_, -, hholds⟩ := h.resize hresize
      have hcapacity : t.capacity = n := hholds.capacity_eq
      show create t.capacity hash seed = .ok t.clear
      rw [hcapacity]
      exact create_clear_resize h hc hresize
  · have hclear := c.clear_perform (not_exists.1 hrequest)
    have hcapacity : (Store.perform c request).2.capacity = c.capacity :=
      (congrArg TinyLfu.capacity hclear :)
    rw [hclear, hcapacity, hc]

end TinyLfu

end BoundedCache
