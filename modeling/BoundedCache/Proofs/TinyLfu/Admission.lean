import BoundedCache.Proofs.Segmented.Checked
import BoundedCache.Proofs.TinyLfu.Lawful

/-!
# Who is admitted to the main part

What the put of a new key does to the lists of a store, entry by entry: the key comes to the end of
the window, the head of a full window moves on, and a full main part keeps the more popular one of
that entry and its own oldest one.

The checked operations follow the plain ones step by step, but give up where the main part or the
window would drop an entry without anyone being told. In a state in order they never give up.

## Main definitions

- `TinyLfu.Leaves` — the entry that an operation tells, and the three lists after it
- `TinyLfu.Admits` — what the put of a new key does, by the room that there is
- `TinyLfu.put?`, `TinyLfu.get?` — the checked operations
- `TinyLfu.SameParts` — two stores that may differ in the popularity of keys only

## Main results

- `TinyLfu.Valid.admits` — what the put of a new key does in a state in order
- `TinyLfu.Valid.put?_eq`, `TinyLfu.Valid.get?_eq` — the checked operations do what the plain
  ones do
- `TinyLfu.SameParts.put` — while the main part has room, popularity makes no difference to a put
- `TinyLfu.actAll_admits` — every state that can be reached
-/

namespace BoundedCache

namespace TinyLfu

open Keyed
open Store (undisturbed undisturbed_of_none)

variable {κ ν : Type} [DecidableEq κ] [Hashable κ]

/-! ## Lists -/

/-- An operation tells an entry that went, if any, and leaves certain lists: the window, the
probation of the main part, and its protected segment. -/
structure Leaves (p : Option (Entry κ ν) × TinyLfu κ ν) (gone : Option (Entry κ ν))
    (window probation guarded : List (Entry κ ν)) : Prop where
  gone_eq : p.1 = gone
  window_eq : p.2.window.entries = window
  probation_eq : p.2.main.probation.entries = probation
  guarded_eq : p.2.main.guarded.entries = guarded

variable {c d : TinyLfu κ ν} {k : κ} {n : Nat} {e : Entry κ ν}

/-- While the main part has room, a candidate comes to the end of probation. -/
theorem contest_of_room (h : MainValid c.main) (hout : e.key ∉ keys c.main.entries)
    (hroom : c.main.size < c.main.capacity) :
    Leaves (c.contest e) none c.window.entries (c.main.probation.entries ++ [e])
      c.main.guarded.entries := by
  have hnone : c.main.victim? = none := h.victim?_eq_none_iff.2 (Nat.ne_of_lt hroom)
  obtain ⟨-, hprobation, hguarded⟩ := h.put_entries hout hroom e.value
  rw [contest_def, hnone]
  exact ⟨rfl, rfl, hprobation, hguarded⟩

/-- A main part that lost an entry has room for a candidate. -/
theorem main_evicted (h : MainValid c.main) (hout : k ∉ keys c.main.entries) {victim : Entry κ ν}
    (hevict : c.main.evict = (some victim, c.main.evict.2)) :
    MainValid c.main.evict.2 ∧ k ∉ keys c.main.evict.2.entries ∧
      c.main.evict.2.size < c.main.evict.2.capacity := by
  obtain ⟨rest, hp, hholds⟩ := h.evict.exists_rest
  rw [hevict] at hp
  have hp' : c.main.entries.Perm (victim :: rest) := hp
  have hcount := hp'.length_eq
  have hle := h.size_le
  have hcapacity : c.main.evict.2.capacity = c.main.capacity := hholds.capacity_eq
  rw [List.length_cons, ← h.size_eq, ← Segmented.Valid.size_of_holds hholds] at hcount
  refine ⟨hholds.inv, ?_, by omega⟩
  exact fun hmem => hout (mem_keys_of_rest hp' ((mem_keys_perm hholds.perm).1 hmem))

/-- In a full main part, the oldest entry of probation gives way to a candidate that is more
popular; otherwise it is the candidate that goes. -/
theorem contest_of_full (h : MainValid c.main) (hout : e.key ∉ keys c.main.entries)
    (hfull : c.main.size = c.main.capacity) :
    ∃ victim rest, c.main.probation.entries = victim :: rest ∧
      (c.frequency victim.key < c.frequency e.key →
        Leaves (c.contest e) (some victim) c.window.entries (rest ++ [e])
          c.main.guarded.entries) ∧
      (c.frequency e.key ≤ c.frequency victim.key →
        Leaves (c.contest e) (some e) c.window.entries c.main.probation.entries
          c.main.guarded.entries) := by
  obtain ⟨victim, rest, hrest, hoffered, hevict, hprobation, hguarded⟩ := h.exists_victim hfull
  refine ⟨victim, rest, hrest, fun hmore => ?_, fun hless => ?_⟩
  · obtain ⟨hvalid, hout', hroom⟩ := main_evicted h hout hevict
    obtain ⟨-, hprobation', hguarded'⟩ := hvalid.put_entries hout' hroom e.value
    rw [contest_def, hoffered]
    dsimp only
    rw [if_pos hmore, hevict]
    refine ⟨rfl, rfl, ?_, ?_⟩
    · exact hprobation'.trans (by rw [hprobation])
    · exact hguarded'.trans hguarded
  · rw [contest_def, hoffered]
    dsimp only
    rw [if_neg (Nat.not_lt_of_le hless)]
    exact ⟨rfl, rfl, rfl, rfl⟩

/-- What the put of a new key does. It comes to the end of the window, whose oldest entry leaves a
full window for the end of probation; where the main part is full, either that entry or the oldest
one of probation goes, the more popular one staying. Popularity is what it is after the use of the
new key was recorded. -/
structure Admits (c : TinyLfu κ ν) (k : κ) (v : ν) : Prop where
  of_room : c.window.size < c.window.capacity →
    Leaves (c.put k v) none (c.window.entries ++ [⟨k, v⟩]) c.main.probation.entries
      c.main.guarded.entries
  of_full : c.window.size = c.window.capacity → ∃ candidate window,
    c.window.entries = candidate :: window ∧
      (c.main.size < c.main.capacity →
        Leaves (c.put k v) none (window ++ [⟨k, v⟩]) (c.main.probation.entries ++ [candidate])
          c.main.guarded.entries) ∧
      (c.main.size = c.main.capacity → ∃ victim probation,
        c.main.probation.entries = victim :: probation ∧
          ((c.record k).frequency victim.key < (c.record k).frequency candidate.key →
            Leaves (c.put k v) (some victim) (window ++ [⟨k, v⟩]) (probation ++ [candidate])
              c.main.guarded.entries) ∧
          ((c.record k).frequency candidate.key ≤ (c.record k).frequency victim.key →
            Leaves (c.put k v) (some candidate) (window ++ [⟨k, v⟩]) c.main.probation.entries
              c.main.guarded.entries))

namespace Valid

theorem put_of_new (h : c.Valid) (hk : k ∉ keys c.entries) (v : ν) :
    c.put k v = (c.record k).insertNew k v := by
  obtain ⟨hwindow, hmain⟩ := not_mem_keys_append.1 hk
  have hout : ¬ (c.record k).window.contains k = true := mt (h.joined.left.contains_iff k).1 hwindow
  have hout' : ¬ (c.record k).main.contains k = true :=
    mt (mainLawful.contains_iff h.joined.right k).1 hmain
  rw [TinyLfu.put_def, if_neg hout, if_neg hout']

/-- The window after its oldest entry left has room for a new key. -/
theorem window_evicted (h : c.Valid) (hk : k ∉ keys c.entries) (v : ν)
    (hfull : c.window.size = c.window.capacity) :
    ∃ candidate rest, c.window.entries = candidate :: rest ∧
      c.window.makeRoom = (some candidate, c.window.evict.2) ∧
      candidate.key ∉ keys c.main.entries ∧
      (c.window.evict.2.put k v).1 = none ∧
      (c.window.evict.2.put k v).2.entries = rest ++ [⟨k, v⟩] := by
  obtain ⟨candidate, rest, hrest, hmakeRoom, hvalid, htail, hroom⟩ :=
    h.joined.left.exists_makeRoom_eq hfull
  have hcandidate : candidate.key ∈ keys c.window.entries := by
    rw [hrest]
    exact List.mem_cons_self
  have hout : k ∉ keys rest := by
    intro hmem
    exact (not_mem_keys_append.1 hk).1 (hrest ▸ List.mem_cons_of_mem _ hmem)
  rw [← htail] at hout
  obtain ⟨hnone, hput⟩ := hvalid.put_entries_of_new hout hroom v
  rw [htail] at hput
  exact ⟨candidate, rest, hrest, hmakeRoom, h.joined.disjoint hcandidate, hnone, hput⟩

/-- In a state in order, the put of a new key does what it should. -/
theorem admits (h : c.Valid) (hk : k ∉ keys c.entries) (v : ν) : Admits c k v := by
  have hput := h.put_of_new hk v
  rw [TinyLfu.insertNew_def] at hput
  refine ⟨fun hroom => ?_, fun hfull => ?_⟩
  · have hmakeRoom : (c.record k).window.makeRoom = (none, c.window) := Lru.makeRoom_of_room hroom
    obtain ⟨-, hentries⟩ :=
      h.joined.left.put_entries_of_new (not_mem_keys_append.1 hk).1 hroom v
    rw [hput, hmakeRoom]
    exact ⟨rfl, hentries, rfl, rfl⟩
  · obtain ⟨candidate, rest, hrest, hmakeRoom, hout, -, hentries⟩ := h.window_evicted hk v hfull
    have hmakeRoom' : (c.record k).window.makeRoom = (some candidate, c.window.evict.2) := hmakeRoom
    rw [hmakeRoom'] at hput
    -- The contest is held with the new key in the window already, and its use recorded.
    let d : TinyLfu κ ν := { c.record k with window := (c.window.evict.2.put k v).2 }
    have hput' : c.put k v = d.contest candidate := hput
    have hmain : MainValid d.main := h.joined.right
    refine ⟨candidate, rest, hrest, ?_⟩
    rw [hput', ← hentries]
    exact ⟨contest_of_room hmain hout, contest_of_full hmain hout⟩

end Valid

/-! ## Checked steps -/

/-- A put of the main part, unless it displaces an entry, or a segment of it does. -/
def putMain? (c : TinyLfu κ ν) (entry : Entry κ ν) : Option (TinyLfu κ ν) := do
  let told ← c.main.put? entry.key entry.value
  let main ← undisturbed told
  return { c with main }

/-- A contest, unless the main part displaces an entry by itself, or has none to give way. -/
def contest? (c : TinyLfu κ ν) (candidate : Entry κ ν) :
    Option (Option (Entry κ ν) × TinyLfu κ ν) :=
  match c.main.victim? with
  | none => do
    let c ← c.putMain? candidate
    return (none, c)
  | some victim =>
    if c.frequency victim.key < c.frequency candidate.key then
      match c.main.evict with
      | (none, _) => none
      | (some dropped, main) => do
        let c ← { c with main }.putMain? candidate
        return (some dropped, c)
    else some (some candidate, c)

def insertNew? (c : TinyLfu κ ν) (key : κ) (value : ν) :
    Option (Option (Entry κ ν) × TinyLfu κ ν) := do
  let (candidate, window) := c.window.makeRoom
  let window ← undisturbed (window.put key value)
  let c := { c with window }
  match candidate with
  | none => some (none, c)
  | some candidate => c.contest? candidate

/-- A put, unless one of the parts displaces an entry by itself. -/
def put? (c : TinyLfu κ ν) (key : κ) (value : ν) : Option (Option (Entry κ ν) × TinyLfu κ ν) :=
  let c := c.record key
  if c.window.contains key then do
    let window ← undisturbed (c.window.put key value)
    return (none, { c with window })
  else if c.main.contains key then do
    let c ← c.putMain? ⟨key, value⟩
    return (none, c)
  else c.insertNew? key value

/-- A lookup, unless a segment of the main part displaces an entry. -/
def get? (c : TinyLfu κ ν) (key : κ) : Option (Option ν × TinyLfu κ ν) :=
  let c := c.record key
  if c.window.contains key then
    let (value, window) := c.window.get key
    some (value, { c with window })
  else do
    let (value, main) ← c.main.get? key
    return (value, { c with main })

/-! ## No part displaces an entry by itself -/

theorem putMain?_eq (h : MainValid c.main)
    (hroom : e.key ∈ keys c.main.entries ∨ c.main.size < c.main.capacity) :
    c.putMain? e = some (c.putMain e) := by
  have hroom' : lookup? e.key c.main.entries ≠ none ∨ c.main.size < c.main.capacity :=
    hroom.imp_left lookup?_ne_none_iff.2
  obtain ⟨hnone, -⟩ := (h.put e.key e.value).of_room hroom'
  refine Option.bind_eq_some_iff.2 ⟨_, h.put?_eq e.key e.value, ?_⟩
  exact Option.bind_eq_some_iff.2 ⟨_, undisturbed_of_none hnone, rfl⟩

theorem contest?_eq (h : MainValid c.main) (hout : e.key ∉ keys c.main.entries) :
    c.contest? e = some (c.contest e) := by
  rw [contest?, contest_def]
  by_cases hfull : c.main.size = c.main.capacity
  · obtain ⟨victim, -, -, hoffered, hevict, -⟩ := h.exists_victim hfull
    obtain ⟨hvalid, -, hroom⟩ := main_evicted h hout hevict
    rw [hoffered]
    dsimp only
    split
    · rw [hevict]
      exact Option.bind_eq_some_iff.2 ⟨_, putMain?_eq hvalid (.inr hroom), rfl⟩
    · rfl
  · rw [h.victim?_eq_none_iff.2 hfull]
    have hroom := Nat.lt_of_le_of_ne h.size_le hfull
    exact Option.bind_eq_some_iff.2 ⟨_, putMain?_eq h (.inr hroom), rfl⟩

namespace Valid

theorem insertNew?_eq (h : c.Valid) (hk : k ∉ keys c.entries) (v : ν) :
    c.insertNew? k v = some (c.insertNew k v) := by
  rw [insertNew?, TinyLfu.insertNew_def]
  by_cases hfull : c.window.size = c.window.capacity
  · obtain ⟨candidate, -, -, hmakeRoom, hout, hnone, -⟩ := h.window_evicted hk v hfull
    rw [hmakeRoom]
    refine Option.bind_eq_some_iff.2 ⟨_, undisturbed_of_none hnone, ?_⟩
    exact contest?_eq h.joined.right hout
  · have hroom := Nat.lt_of_le_of_ne h.joined.left.size_le hfull
    obtain ⟨hnone, -⟩ := h.joined.left.put_entries (.inr hroom) v
    rw [Lru.makeRoom_of_room hroom]
    exact Option.bind_eq_some_iff.2 ⟨_, undisturbed_of_none hnone, rfl⟩

/-- In a state in order no part displaces an entry by itself in a put. -/
theorem put?_eq (h : c.Valid) (k : κ) (v : ν) : c.put? k v = some (c.put k v) := by
  have hrecord := h.record k
  rw [put?, TinyLfu.put_def]
  generalize c.record k = d at hrecord ⊢
  have hjoined := hrecord.joined
  dsimp only
  split
  · next hcontains =>
    have hk := (hjoined.left.contains_iff k).1 hcontains
    obtain ⟨hnone, -⟩ := hjoined.left.put_entries (.inl hk) v
    exact Option.bind_eq_some_iff.2 ⟨_, undisturbed_of_none hnone, rfl⟩
  next hwindow =>
  split
  · next hcontains =>
    have hk := (mainLawful.contains_iff hjoined.right k).1 hcontains
    exact Option.bind_eq_some_iff.2 ⟨_, putMain?_eq hjoined.right (.inl hk), rfl⟩
  · next hmain =>
    refine hrecord.insertNew?_eq ?_ v
    exact not_mem_keys_append.2 ⟨mt (hjoined.left.contains_iff k).2 hwindow,
      mt (mainLawful.contains_iff hjoined.right k).2 hmain⟩

/-- In a state in order no part displaces an entry by itself in a lookup. -/
theorem get?_eq (h : c.Valid) (k : κ) : c.get? k = some (c.get k) := by
  have hrecord := h.record k
  rw [get?, TinyLfu.get_def]
  generalize c.record k = d at hrecord ⊢
  dsimp only
  split
  · rfl
  · exact Option.bind_eq_some_iff.2 ⟨_, hrecord.joined.right.get?_eq k, rfl⟩

end Valid

/-! ## Stores with the same parts -/

/-- The parts of two stores are the same, and so are the hashes of keys, whatever their popularity
is. -/
structure SameParts (c d : TinyLfu κ ν) : Prop where
  window_eq : c.window = d.window
  main_eq : c.main = d.main
  hash_eq : c.hash = d.hash

namespace SameParts

theorem size_eq (h : SameParts c d) : c.size = d.size := by
  rw [size, size, h.window_eq, h.main_eq]

theorem insertNew (h : SameParts c d) (hroom : d.main.victim? = none) (k : κ) (v : ν) :
    Matches SameParts (c.insertNew k v) (d.insertNew k v) := by
  rw [TinyLfu.insertNew_def, TinyLfu.insertNew_def, h.window_eq]
  rcases d.window.makeRoom with ⟨_ | candidate, w⟩
  · exact ⟨rfl, rfl, h.main_eq, h.hash_eq⟩
  · dsimp only
    rw [contest_def, contest_def, h.main_eq, hroom]
    exact ⟨rfl, rfl, rfl, h.hash_eq⟩

/-- While the main part has room, popularity makes no difference to a put. -/
theorem put (h : SameParts c d) (hroom : d.main.victim? = none) (k : κ) (v : ν) :
    Matches SameParts (c.put k v) (d.put k v) := by
  have hrecord : SameParts (c.record k) (d.record k) := ⟨h.window_eq, h.main_eq, h.hash_eq⟩
  have hroom' : (d.record k).main.victim? = none := hroom
  rw [TinyLfu.put_def, TinyLfu.put_def]
  generalize c.record k = c' at hrecord ⊢
  generalize d.record k = d' at hrecord hroom' ⊢
  dsimp only
  rw [hrecord.window_eq, hrecord.main_eq]
  by_cases hwindow : d'.window.contains k = true
  · rw [if_pos hwindow, if_pos hwindow]
    exact ⟨rfl, rfl, rfl, hrecord.hash_eq⟩
  by_cases hmain : d'.main.contains k = true
  · rw [if_neg hwindow, if_neg hwindow, if_pos hmain, if_pos hmain]
    refine ⟨rfl, hrecord.window_eq, ?_, hrecord.hash_eq⟩
    exact congrArg (fun main : Segmented κ ν => (main.put k v).2) hrecord.main_eq
  · rw [if_neg hwindow, if_neg hwindow, if_neg hmain, if_neg hmain]
    exact hrecord.insertNew hroom' k v

theorem remove (h : SameParts c d) (k : κ) : Matches SameParts (c.remove k) (d.remove k) := by
  rw [remove_eq, remove_eq, h.window_eq, h.main_eq]
  exact ⟨rfl, rfl, rfl, h.hash_eq⟩

end SameParts

/-! ## New stores -/

theorem exists_popularity (hn : 0 < n) (seed : UInt64) :
    ∃ popularity, Popularity.create n seed = .ok popularity := by
  obtain ⟨sketch, hsketch⟩ : ∃ sketch,
      Sketch.create n Popularity.errorRange Popularity.errorRate seed = .ok sketch :=
    ⟨_, bind_eq_ok_iff.2 ⟨(), requireCapacity_eq_ok_iff.2 hn,
      ite_throw_eq_ok_iff.2 ⟨by decide,
        bind_eq_ok_iff.2 ⟨(), requireFraction_eq_ok_iff.2 (by decide +kernel), rfl⟩⟩⟩⟩
  obtain ⟨doorkeeper, hdoorkeeper⟩ : ∃ doorkeeper,
      Membership.create n Popularity.falsePositiveRate seed = .ok doorkeeper :=
    ⟨_, bind_eq_ok_iff.2 ⟨(), requireCapacity_eq_ok_iff.2 hn,
      bind_eq_ok_iff.2 ⟨(), requireFraction_eq_ok_iff.2 (by decide +kernel), rfl⟩⟩⟩
  exact ⟨_, bind_eq_ok_iff.2 ⟨_, hsketch, bind_eq_ok_iff.2 ⟨_, hdoorkeeper, rfl⟩⟩⟩

/-- A store without entries. -/
def vacant (capacity : Nat) (hash : KeyHash κ) (seed : UInt64) (parts : Layout) (ratio : Float)
    (guarded : Nat) (popularity : Popularity) : TinyLfu κ ν where
  capacity := capacity
  hash := hash
  seed := seed
  window := .empty parts.window
  main :=
    { capacity := parts.main
      ratio := ratio
      probation := .empty parts.main
      guarded := .empty guarded }
  popularity := popularity

/-- There is a store for every capacity that can be divided up, and only the popularity of keys is
left open. -/
theorem exists_create_eq {parts : Layout} (hlayout : layout n = .ok parts) (hash : KeyHash κ)
    (seed : UInt64) :
    ∃ popularity, (create n hash seed : Except SetupError (TinyLfu κ ν)) =
      .ok (vacant n hash seed parts Segmented.defaultRatio
        (Split.ofRatio parts.main Segmented.defaultRatio).guarded popularity) := by
  obtain ⟨hwindow, hmain, hsum, hguarded⟩ := layout_facts hlayout
  obtain ⟨popularity, hpopularity⟩ := exists_popularity (n := n) (by omega) seed
  have hsegmented := Segmented.create_eq_ok (κ := κ) (ν := ν) (by decide +kernel) hmain hguarded
  exact ⟨popularity, bind_eq_ok_iff.2 ⟨_, hlayout,
    bind_eq_ok_iff.2 ⟨_, Lru.create_eq_ok_iff.2 ⟨hwindow, rfl⟩,
      bind_eq_ok_iff.2 ⟨_, hsegmented, bind_eq_ok_iff.2 ⟨_, hpopularity, rfl⟩⟩⟩⟩⟩

theorem exists_create {parts : Layout} (hlayout : layout n = .ok parts) (hash : KeyHash κ)
    (seed : UInt64) : ∃ c : TinyLfu κ ν, create n hash seed = .ok c :=
  (exists_create_eq hlayout hash seed).elim fun _ hc => ⟨_, hc⟩

theorem layout_three : layout 3 = .ok ⟨1, 2⟩ :=
  bind_eq_ok_iff.2 ⟨(), requireCapacity_eq_ok_iff.2 (by decide),
    ite_throw_eq_ok_iff.2 ⟨by decide +kernel, congrArg Except.ok (by decide +kernel)⟩⟩

/-! ## Every reachable state -/

/-- Whatever was done with a new store, window and main part bind different keys, fit into their
capacities, and divide the whole capacity between them. The put of a new key then does what it
should; the entry that went is returned, and is the one that the listener is told. No part displaces
an entry by itself in a put or a lookup. -/
theorem actAll_admits {hash : KeyHash κ} {seed : UInt64} (hc : create n hash seed = .ok c)
    (listener : Option Nat) (actions : List (Observed.Action κ ν)) :
    let o := (Observed.actAll { store := c, listener } actions).2
    let s := o.store
    o.listener = ((actions.filterMap Observed.Action.listener?).getLast?).or listener ∧
      List.Disjoint (keys s.window.entries) (keys s.main.entries) ∧
      s.window.size ≤ s.window.capacity ∧ s.main.size ≤ s.main.capacity ∧
      s.window.capacity + s.main.capacity = s.capacity ∧
      (∀ k v, k ∉ keys s.entries → Admits s k v) ∧
      (∀ k v,
        let told := (o.perform (.put k v)).1
        told.1 = .entry (s.put k v).1 ∧ o.Tells (s.put k v).1.toList told.2 ∧
          (o.perform (.put k v)).2.store = (s.put k v).2) ∧
      (∀ k v, s.put? k v = some (s.put k v)) ∧ ∀ k, s.get? k = some (s.get k) := by
  intro o s
  let start : Observed (TinyLfu κ ν) := { store := c, listener }
  have h : s.Valid := lawful.actAll (o := start) (create_holds hc).inv actions
  refine ⟨start.listener_actAll actions, h.joined.disjoint, h.joined.left.size_le,
    h.joined.right.size_le, h.capacity_eq, fun k v hk => h.admits hk v,
    fun k v => ⟨o.reply_perform_put k v, ?_, o.store_perform_put k v⟩, h.put?_eq, h.get?_eq⟩
  have htells := o.tells_perform (.put k v)
  rw [Observed.reported, Store.evicted_put] at htells
  exact htells

/-- Three puts, after which a store for three entries is full. -/
def threePuts : List (Observed.Action Nat Nat) :=
  [.request (.put 1 10), .request (.put 2 20), .request (.put 3 30)]

/-- Window and main part are full then, whatever the popularity of keys was. -/
theorem threePuts_readings (ratio : Float) (popularity : Popularity) :
    let start := vacant 3 (fun _ => 0) 5 ⟨1, 2⟩ ratio 1 popularity
    let s := (Observed.actAll { store := start, listener := some 7 } threePuts).2.store
    s.hash 1 = s.hash 3 ∧ s.window.size = s.window.capacity ∧ s.main.size = s.main.capacity ∧
      s.window.entries = [⟨3, 30⟩] ∧ s.main.probation.entries = [⟨1, 10⟩, ⟨2, 20⟩] ∧
      s.main.guarded.entries = [] := by
  intro start s
  -- The main part has room during all of the puts, so any popularity gives the same parts.
  let twin : TinyLfu Nat Nat := vacant 3 (fun _ => 0) 5 ⟨1, 2⟩ ratio 1 ⟨⟨[]⟩, ⟨#[], []⟩, 0, 0⟩
  have hroom₁ : twin.main.victim? = none := by cbv
  have hroom₂ : (twin.put 1 10).2.main.victim? = none := by cbv
  have hroom₃ : ((twin.put 1 10).2.put 2 20).2.main.victim? = none := by cbv
  have hstart : SameParts start twin := ⟨rfl, rfl, rfl⟩
  have hput₁ := (hstart.put hroom₁ 1 10).related
  have hput₂ := (hput₁.put hroom₂ 2 20).related
  have hput₃ := (hput₂.put hroom₃ 3 30).related
  have hs : s = (((start.put 1 10).2.put 2 20).2.put 3 30).2 := by
    simp only [s, threePuts, Observed.actAll, Observed.act, Observed.store_perform_put]
    rfl
  rw [hs, hput₃.window_eq, hput₃.main_eq, hput₃.hash_eq]
  exact ⟨by cbv, by cbv, by cbv, by cbv, by cbv, by cbv⟩

/-- Window and main part are full after three puts, so a fourth one calls for a contest. Where no
key is told from another, its outcome is a tie, which the oldest entry of the window loses to the
oldest one of probation. -/
theorem actAll_admits_tie :
    ∃ c : TinyLfu Nat Nat, create 3 (fun _ => 0) 5 = .ok c ∧
      let o := (Observed.actAll { store := c, listener := some 7 } threePuts).2
      (o.perform (.put 4 40)).1 = (.entry (some ⟨3, 30⟩), [⟨7, ⟨3, 30⟩⟩]) ∧
        Leaves (o.store.put 4 40) (some ⟨3, 30⟩) [⟨4, 40⟩] [⟨1, 10⟩, ⟨2, 20⟩] [] := by
  have hguarded : (Split.ofRatio 2 Segmented.defaultRatio).guarded = 1 := by decide +kernel
  obtain ⟨popularity, hc⟩ := exists_create_eq (κ := Nat) (ν := Nat) layout_three (fun _ => 0) 5
  rw [hguarded] at hc
  refine ⟨_, hc, ?_⟩
  obtain ⟨hlistener, -, -, -, -, hadmits, hput, -⟩ := actAll_admits hc (some 7) threePuts
  obtain ⟨hhash, hwindow, hmain, hlast, hprobation, hguarded⟩ :=
    threePuts_readings Segmented.defaultRatio popularity
  generalize (Observed.actAll { store := vacant .., listener := some 7 } threePuts).2 = o at *
  have hnew : 4 ∉ keys o.store.entries := by
    rw [entries, Segmented.entries, hlast, hprobation, hguarded]
    decide
  obtain ⟨candidate, window, hcandidate, -, hcontest⟩ := (hadmits 4 40 hnew).of_full hwindow
  obtain ⟨victim, probation, hvictim, -, htie⟩ := hcontest hmain
  obtain ⟨rfl, rfl⟩ := List.cons.inj (hcandidate.symm.trans hlast)
  obtain ⟨rfl, rfl⟩ := List.cons.inj (hvictim.symm.trans hprobation)
  have hloses :=
    htie (Nat.le_of_eq (congrArg (o.store.record 4).popularity.frequency hhash.symm))
  rw [hprobation, hguarded] at hloses
  obtain ⟨hreply, htells, -⟩ := hput 4 40
  rw [hloses.gone_eq] at hreply htells
  exact ⟨Prod.ext hreply (htells.of_some 7 hlistener), hloses⟩

end TinyLfu

end BoundedCache
