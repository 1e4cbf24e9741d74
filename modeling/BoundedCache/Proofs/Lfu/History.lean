import BoundedCache.Proofs.Lfu.Order
import BoundedCache.Proofs.Lfu.Recall

/-!
# What frequency stores do, told by their history

Frequency stores act like rankings, which recall the stays of their keys. So the history tells the
number of uses of every key, and which of those that were never found since they entered goes first.
How the others are ordered it does not tell; but a use never moves an entry past one that is used as
often, and new keys soon displace one another only.

## Main definitions

- `Lfu.Climbs` — an entry moves past some that are used less often
- `Lfu.Fresh`, `Lfu.displaced` — puts of keys that are not bound, and what they displace

## Main results

- `Lfu.Valid.climbs_get` — what a lookup does to the order
- `Lfu.Valid.countP_displaced_le` — what puts of new keys displace
- `Lfu.actAll_recalls` — every state that can be reached
-/

namespace BoundedCache

open Keyed Observed

namespace Lfu

variable {κ ν : Type} [DecidableEq κ] [Hashable κ] {c d : Lfu κ ν} {k : κ} {v : ν}
  {l : List (Entry κ ν)}

/-- An entry is used once more and moves away from the end that gives way, past some that are used
less often than it is now. -/
def Climbs (k : κ) (before after : List (Counted κ ν)) : Prop :=
  ∃ below x overtaken above, x.key = k ∧ before = below ++ x :: (overtaken ++ above) ∧
    after = below ++ overtaken ++ x.used :: above ∧ ∀ y ∈ overtaken, y.frequency < x.used.frequency

theorem Valid.climbs_get {turns : List (Turn κ ν)} (hc : c.Valid)
    (h : Ranking.Recalls turns c.view.ranked) (k : κ) :
    if c.contains k then Climbs k c.ranking (c.get k).2.ranking
    else (c.get k).2.ranking = c.ranking := by
  obtain ⟨_, ⟨hwf, rfl⟩, hm⟩ := hc
  obtain ⟨-, hwf', hview⟩ := hwf.get k
  have hget : (c.get k).2.view = c.view.use k := hview
  rw [hwf'.ranking_eq, hget, hwf.ranking_eq, hwf.contains_eq, Ranking.contains]
  rcases hx : c.view.find? k with _ | x
  · rw [Ranking.use, hx]
    exact rfl
  · obtain ⟨above, overtaken, below, hranked, huse, hlt, -⟩ :=
      Ranking.exists_use hm h.separated (fun _ => h.one_le_frequency) hx
    obtain ⟨-, hkey⟩ := mem_of_find?_eq_some hx
    refine ⟨below.reverse, x, overtaken.reverse, above.reverse, hkey, ?_, ?_, ?_⟩
    · rw [hranked]
      simp
    · rw [huse]
      simp
    · simpa using hlt

/-! ## Puts of new keys -/

/-- Each of the keys is not bound when it is put. -/
def Fresh (c : Lfu κ ν) : List (Entry κ ν) → Prop
  | [] => True
  | e :: l => c.contains e.key = false ∧ Fresh (c.put e.key e.value).2 l

/-- What some puts displace, each entry with the number of uses that it had. -/
def displaced (c : Lfu κ ν) : List (Entry κ ν) → List (Entry κ ν × Option Nat)
  | [] => []
  | e :: l =>
    let p := c.put e.key e.value
    (p.1.toList.map fun dropped => (dropped, c.frequency? dropped.key)) ++ displaced p.2 l

theorem WellFormed.separated (h : c.WellFormed) : Ranking.Separated c.view.ranked := by
  obtain ⟨often, once, h⟩ := h
  rw [view_eq h.indexed, Ranking.Separated, List.pairwise_map, List.pairwise_append]
  have honce : ∀ y ∈ once, y.2.frequency = 1 := h.frequency_eq_one
  have hoften : ∀ x ∈ often, x.2.frequency ≠ 1 := by
    intro x hx
    have htwo := h.two_le_frequency x hx
    omega
  refine ⟨List.pairwise_of_forall_mem_list ?_, List.pairwise_of_forall_mem_list ?_, ?_⟩
  · exact fun x hx _ _ hone => absurd hone (hoften x hx)
  · exact fun _ _ y hy _ => honce y hy
  · exact fun _ _ y hy _ => honce y hy

/-- The entry that gives way next was used once. -/
def NextOnce (c : Lfu κ ν) : Prop := ∀ x, c.ranking.head? = some x → x.frequency = 1

/-- A new key displaces what gives way next. -/
theorem Valid.dropped_of_put (hc : c.Valid) (hk : c.contains k = false) {e : Entry κ ν}
    (he : (c.put k v).1 = some e) :
    ∃ x, c.ranking.head? = some x ∧ c.frequency? e.key = some x.frequency := by
  obtain ⟨_, ⟨hwf, rfl⟩, hm⟩ := hc
  rw [hwf.contains_eq] at hk
  rw [(hwf.put k v).fst_eq, Ranking.put, if_neg (Bool.eq_false_iff.1 hk)] at he
  have hdropped : c.view.makeRoom.1 = some e := he
  rw [Ranking.makeRoom] at hdropped
  rw [hwf.ranking_eq, List.head?_reverse, hwf.frequency?_eq, Ranking.frequency?]
  split at hdropped
  · obtain ⟨x, hx, rfl⟩ := Option.map_eq_some_iff.1 hdropped
    have hfind : c.view.find? x.entry.key = some x :=
      (find?_eq_some_iff hm.distinct).2 ⟨List.mem_of_getLast? hx, rfl⟩
    rw [hfind]
    exact ⟨x, hx, rfl⟩
  · cases hdropped

/-- After the put of a new key, what gives way next was used once. -/
theorem Valid.nextOnce_put (hc : c.Valid) (hk : c.contains k = false) (v : ν) :
    (c.put k v).2.NextOnce := by
  obtain ⟨_, ⟨hwf, rfl⟩, -⟩ := hc
  obtain ⟨-, hwf', hview⟩ := hwf.put k v
  rw [hwf.contains_eq] at hk
  rw [Ranking.put, if_neg (Bool.eq_false_iff.1 hk)] at hview
  obtain ⟨gone, hranked, -⟩ := c.view.exists_gone_makeRoom
  have hseparated := hwf.separated
  rw [hranked] at hseparated
  have hkept : Ranking.Separated c.view.makeRoom.2.ranked :=
    hseparated.sublist (List.sublist_append_left ..)
  intro x hx
  rw [hwf'.ranking_eq, List.head?_reverse, hview] at hx
  exact hkept.frequency_getLast?_insertOnce rfl hx

/-- Once an entry used once gives way next, new keys displace no others. -/
theorem Valid.displaced_once (hc : c.Valid) (hnext : c.NextOnce) (hl : c.Fresh l) :
    ∀ p ∈ c.displaced l, p.2 = some 1 := by
  induction l generalizing c with
  | nil => exact fun p hp => absurd hp List.not_mem_nil
  | cons e l ih =>
    obtain ⟨hk, hl⟩ := hl
    refine List.forall_mem_append.2 ⟨List.forall_mem_map.2 fun dropped hmem => ?_, ?_⟩
    · obtain ⟨x, hx, hfrequency⟩ := hc.dropped_of_put hk (Option.mem_toList.1 hmem)
      rw [hfrequency, hnext x hx]
    · obtain ⟨_, -, hput⟩ := (hc.put e.key e.value).exists_rest
      exact ih hput.inv (hc.nextOnce_put hk e.value) hl

/-- New keys displace at most one entry that was used more than once. -/
theorem Valid.countP_displaced_le (hc : c.Valid) (hl : c.Fresh l) :
    (c.displaced l).countP (fun p => p.2 ≠ some 1) ≤ 1 := by
  cases l with
  | nil => exact Nat.zero_le _
  | cons e l =>
    obtain ⟨hk, hl⟩ := hl
    obtain ⟨_, -, hput⟩ := (hc.put e.key e.value).exists_rest
    have hlater := Valid.displaced_once hput.inv (hc.nextOnce_put hk e.value) hl
    have hfirst : (c.put e.key e.value).1.toList.length ≤ 1 := by
      cases (c.put e.key e.value).1 <;> simp
    have hnone : ((c.put e.key e.value).2.displaced l).countP (fun p => p.2 ≠ some 1) = 0 := by
      refine List.countP_eq_zero.2 fun p hp => ?_
      simp [hlater p hp]
    rw [displaced, List.countP_append, hnone]
    exact List.countP_le_length.trans (by rwa [List.length_map])

theorem map_displaced (o : Observed (Lfu κ ν)) (l : List (Entry κ ν)) :
    (o.store.displaced l).map Prod.fst = (o.actAll (puts l)).1.flatMap Turn.reported := by
  induction l generalizing o with
  | nil => rfl
  | cons e l ih =>
    have hrest := ih (o.perform (.put e.key e.value)).2
    rw [store_perform_put] at hrest
    rw [displaced, List.map_append, List.map_map, reported_puts_cons, ← hrest]
    exact congrArg (· ++ _) (List.map_id _)

/-! ## Reachable states -/

/-- In every state that can be reached the number of uses of a key is told by its stay. Whenever
some key that is bound was never found, what gives way, whatever makes it, is the one of those that
entered first. A lookup moves no entry but the one that it finds, and that one past those only that
are used less often; and new keys, however many are put, displace at most one entry that was used
more than once. -/
theorem actAll_recalls {n : Nat} (hc : create n = .ok c) (listener : Option Nat)
    (actions : List (Observed.Action κ ν)) :
    let run := Observed.actAll { store := c, listener } actions
    let turns := run.1
    let s := run.2.store
    (∀ k, s.contains k = (stay k turns).isSome ∧
      s.frequency? k = (stay k turns).map Stay.frequency) ∧
    (∀ request before e rest, (Store.perform s request).1.evicted = before ++ e :: rest →
      ∀ k time, k ∉ keys before → stay k turns = some ⟨time, 0⟩ →
        ∃ first, stay e.key turns = some ⟨first, 0⟩ ∧ (k = e.key ∨ first < time)) ∧
    (∀ k, if s.contains k then Climbs k s.ranking (s.get k).2.ranking
      else (s.get k).2.ranking = s.ranking) ∧
    ∀ l, Fresh s l →
      (s.displaced l).map Prod.fst = (run.2.actAll (puts l)).1.flatMap Turn.reported ∧
        (s.displaced l).countP (fun p => p.2 ≠ some 1) ≤ 1 := by
  intro run turns s
  obtain ⟨hn, rfl⟩ := create_eq_ok_iff.1 hc
  let start : Observed (Ranking κ ν) := { store := ⟨n, []⟩, listener }
  have hstart : start.store.Valid := ⟨List.nodup_nil, Nat.zero_le n, hn⟩
  have hstands : StandsFor (empty n : Lfu κ ν) ⟨n, []⟩ :=
    ⟨⟨[], [], empty_ranks n⟩, view_eq (empty_ranks n).indexed⟩
  have halike : Alike StandsFor { store := (empty n : Lfu κ ν), listener } start :=
    ⟨hstands, rfl, rfl⟩
  obtain ⟨hturns, ⟨hwf, hview⟩, -, -⟩ := actAll_matches simulation halike actions
  have hm : (start.actAll actions).2.store.Valid := 
    Ranking.lawful.actAll (o := start) hstart actions
  have hvalid : s.Valid := ⟨_, ⟨hwf, hview⟩, hm⟩
  have h : Ranking.Recalls turns s.view.ranked := by
    rw [show turns = _ from hturns, hview]
    exact hstart.recalls_actAll .nil actions
  have hfrequency := h.frequency?_eq
  refine ⟨fun k => ⟨?_, ?_⟩, ?_, hvalid.climbs_get h, fun l hl => ?_⟩
  · have hbound : s.view.contains k = (s.view.frequency? k).isSome := Option.isSome_map.symm
    rw [hwf.contains_eq, hbound, hfrequency, Option.isSome_map]
  · rw [hwf.frequency?_eq, hfrequency k]
  · intro request before e rest hevicted k time hk hstay
    obtain ⟨houtcome, -⟩ := simulation.perform ⟨hwf, hview⟩ request
    rw [houtcome, ← hview] at hevicted
    exact h.earliest request hevicted hk hstay
  · exact ⟨map_displaced run.2 l, hvalid.countP_displaced_le hl⟩

/-- Three keys, of which the first one is found once: of the other two the second one goes first,
and a new key takes its place. -/
theorem actAll_recalls_three :
    create 3 = .ok (empty 3 : Lfu Nat Nat) ∧
      let run := Observed.actAll { store := (empty 3 : Lfu Nat Nat) }
        [.request (.put 1 10), .request (.put 2 20), .request (.put 3 30), .request (.get 1)]
      run.2.store.frequency? 1 = some 2 ∧
        (Store.perform run.2.store (.evict : Request Nat Nat)).1.evicted = [⟨2, 20⟩] ∧
        (∃ first, stay 2 run.1 = some ⟨first, 0⟩ ∧ (3 = 2 ∨ first < 2)) ∧
        run.2.store.displaced [⟨4, 40⟩] = [(⟨2, 20⟩, some 1)] ∧
        (run.2.store.displaced [⟨4, 40⟩]).countP (fun p => p.2 ≠ some 1) ≤ 1 := by
  have hc : create 3 = .ok (empty 3 : Lfu Nat Nat) := rfl
  obtain ⟨hstays, hearliest, -, hnew⟩ := actAll_recalls hc none
    [.request (.put 1 10), .request (.put 2 20), .request (.put 3 30), .request (.get 1)]
  refine ⟨hc, ?_, ?_, ?_, ?_, ?_⟩
  · rw [(hstays 1).2]
    cbv
  · cbv
  · exact hearliest .evict [] ⟨2, 20⟩ [] (by cbv) 3 2 List.not_mem_nil (by cbv)
  · cbv
  · exact (hnew [⟨4, 40⟩] ⟨by cbv, trivial⟩).2

end Lfu

end BoundedCache
