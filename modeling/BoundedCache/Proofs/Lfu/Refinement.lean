import BoundedCache.Proofs.Chain.Index
import BoundedCache.Proofs.Lfu.Ranking

/-!
# Frequency stores refine rankings

A frequency store never searches its chain: it remembers the slot of the first entry used once. That
slot is right in every state, so the store acts like the plain list in which the place is searched.

## Main definitions

- `Lfu.Ranks` — the entries used more often, then those used once, with the slot where these begin
- `Lfu.view` — the list that a store stands for

## Main results

- `Lfu.Ranks.takeAt`, `Lfu.Ranks.insertNew`, `Lfu.Ranks.countUse` — the changes after which the slot
  has to be put right
- `Lfu.simulation` — every operation does to the store what it does to the list
- `Lfu.actAll_refines_ranking` — so does every sequence of requests
-/

namespace BoundedCache

namespace Lfu

open Keyed

variable {κ ν : Type} [DecidableEq κ] [Hashable κ] {c : Lfu κ ν} {k : κ} {v : ν} {i : Slot}
  {x : Counted κ ν} {often once as bs xs ys : List (Slot × Counted κ ν)}

/-! ## Those used once -/

/-- Chain and index agree on a list whose entries are first those used more than once and then those
used once, and the slot of the first of the latter is known. -/
structure Ranks (c : Lfu κ ν) (often once : List (Slot × Counted κ ν)) : Prop where
  indexed : c.chain.Indexed Counted.key c.index (often ++ once)
  two_le_frequency : ∀ x ∈ often, 2 ≤ x.2.frequency
  frequency_eq_one : ∀ x ∈ once, x.2.frequency = 1
  onceFront_eq : c.onceFront = once.head?.map Prod.fst

def WellFormed (c : Lfu κ ν) : Prop := ∃ often once, c.Ranks often once

/-- The list that a store stands for. -/
def view (c : Lfu κ ν) : Ranking κ ν := ⟨c.capacity, c.chain.toList⟩

/-- The slot of the first entry used once is right, and a list is what the store stands for. -/
def StandsFor (c : Lfu κ ν) (m : Ranking κ ν) : Prop := c.WellFormed ∧ c.view = m

/-- An operation on a store tells and does what an operation on a list does. -/
abbrev Agrees {β : Type} (p : β × Lfu κ ν) (q : β × Ranking κ ν) : Prop := Matches StandsFor p q

theorem view_eq {l : List (Slot × Counted κ ν)} (h : c.chain.Indexed Counted.key c.index l) :
    c.view = ⟨c.capacity, l.map Prod.snd⟩ := by
  rw [view, h.represents.toList_eq]

theorem empty_ranks (capacity : Nat) : (empty capacity : Lfu κ ν).Ranks [] [] where
  indexed := .empty
  two_le_frequency _ hx := absurd hx List.not_mem_nil
  frequency_eq_one _ hx := absurd hx List.not_mem_nil
  onceFront_eq := rfl

/-! ## Reading -/

namespace WellFormed

theorem size_eq (h : c.WellFormed) : c.size = c.view.ranked.length := by
  obtain ⟨often, once, h⟩ := h
  rw [view_eq h.indexed, size, h.indexed.represents.size_eq, List.length_map]

theorem isFull_eq (h : c.WellFormed) : c.isFull = c.view.isFull := by
  rw [isFull, Ranking.isFull, h.size_eq]
  rfl

theorem find?_eq (h : c.WellFormed) (k : κ) : c.find? k = c.view.find? k := by
  obtain ⟨often, once, h⟩ := h
  rw [view_eq h.indexed]
  exact h.indexed.bind_get? k

theorem contains_eq (h : c.WellFormed) (k : κ) : c.contains k = c.view.contains k := by
  obtain ⟨often, once, h⟩ := h
  rw [view_eq h.indexed]
  exact h.indexed.contains_eq k

theorem peek_eq (h : c.WellFormed) (k : κ) : c.peek k = c.view.peek k := by
  rw [peek, Ranking.peek, h.find?_eq]

theorem frequency?_eq (h : c.WellFormed) (k : κ) : c.frequency? k = c.view.frequency? k := by
  rw [frequency?, Ranking.frequency?, h.find?_eq]

theorem entries_eq (h : c.WellFormed) : c.entries = c.view.entries := by
  obtain ⟨often, once, h⟩ := h
  rw [view_eq h.indexed, entries, ranking, h.indexed.represents.toListBack_eq, List.map_reverse]
  rfl

theorem next?_eq (h : c.WellFormed) : c.next? = c.view.next? := by
  obtain ⟨often, once, h⟩ := h
  rw [view_eq h.indexed, next?, h.indexed.represents.back?_eq, Ranking.next?, List.getLast?_map]

end WellFormed

/-- The element of a key in the list that a store stands for, and what is left without it. -/
theorem ranked_split (h : c.chain.Indexed Counted.key c.index (xs ++ (i, x) :: ys)) :
    c.view.find? x.key = some x ∧
      erase Counted.key x.key c.view.ranked = (xs ++ ys).map Prod.snd := by
  have hd := h.distinct_values
  rw [Ranking.find?, view_eq h]
  rw [List.map_append, List.map_cons] at hd ⊢
  rw [find?_append_cons hd, erase_append_cons hd, List.map_append]
  exact ⟨rfl, rfl⟩

theorem ranked_modify (h : c.chain.Indexed Counted.key c.index (xs ++ (i, x) :: ys))
    (f : Counted κ ν → Counted κ ν) :
    modify Counted.key x.key f c.view.ranked = (xs ++ (i, f x) :: ys).map Prod.snd := by
  have hd := h.distinct_values
  rw [view_eq h]
  rw [List.map_append, List.map_cons] at hd ⊢
  rw [modify_append_cons hd, List.map_append, List.map_cons]

theorem frequencyAt_eq (h : c.chain.Represents (xs ++ (i, x) :: ys)) :
    c.frequencyAt i = x.frequency := by
  have hget : c.chain.get? i = some x := h.get?_eq_some_iff.2 (by simp)
  rw [frequencyAt, hget]
  rfl

namespace Ranks

/-- A key that is bound stands either among those used more often or among those used once. -/
theorem place (h : c.Ranks often once) (hi : c.index[k]? = some i) :
    (∃ as x bs, often = as ++ (i, x) :: bs ∧ x.key = k) ∨
      ∃ as x bs, once = as ++ (i, x) :: bs ∧ x.key = k := by
  obtain ⟨xs, x, ys, hl, hk⟩ := h.indexed.exists_split hi
  have hmem : (i, x) ∈ often ++ once := by
    rw [hl]
    simp
  rcases List.mem_append.1 hmem with hmem | hmem
  · obtain ⟨as, bs, hoften⟩ := List.append_of_mem hmem
    exact .inl ⟨as, x, bs, hoften, hk⟩
  · obtain ⟨as, bs, honce⟩ := List.append_of_mem hmem
    exact .inr ⟨as, x, bs, honce, hk⟩

end Ranks

/-! ## Taking an entry out -/

theorem takeAt_eq (h : c.chain.Represents (xs ++ (i, x) :: ys)) :
    c.takeAt i = (some x.entry,
      { c with
        chain := (c.chain.unlink i).release i
        index := c.index.erase x.key
        onceFront := if c.onceFront = some i then c.chain.after? i else c.onceFront }) := by
  rw [takeAt]
  simp only [h.remove_eq]
  rfl

namespace Ranks

theorem takeAt_often (h : c.Ranks (as ++ (i, x) :: bs) once) :
    (c.takeAt i).2.Ranks (as ++ bs) once := by
  have hindexed := h.indexed
  rw [List.append_assoc, List.cons_append] at hindexed
  have hslot : c.onceFront ≠ some i := by
    rw [h.onceFront_eq]
    cases once with
    | nil => exact (Option.some_ne_none i).symm
    | cons y once =>
      intro hy
      refine hindexed.represents.distinct.ne_of_split.2 y ?_ (Option.some.inj hy)
      simp
  have herased := hindexed.erase hindexed.represents.removeAt
  rw [← List.append_assoc] at herased
  rw [takeAt_eq hindexed.represents, if_neg hslot]
  exact ⟨herased, forall_mem_remove h.two_le_frequency, h.frequency_eq_one, h.onceFront_eq⟩

theorem takeAt_once (h : c.Ranks often (as ++ (i, x) :: bs)) :
    (c.takeAt i).2.Ranks often (as ++ bs) := by
  have hindexed := h.indexed
  rw [← List.append_assoc] at hindexed
  have hfront : (if c.onceFront = some i then c.chain.after? i else c.onceFront) =
      (as ++ bs).head?.map Prod.fst := by
    cases as with
    | nil =>
      -- The first of those used once goes, so the next one takes its place.
      rw [h.onceFront_eq, List.nil_append, List.head?_cons, Option.map_some, if_pos rfl,
        hindexed.represents.after?_eq]
      rfl
    | cons y as =>
      have hslot : y.1 ≠ i := by
        refine hindexed.represents.distinct.ne_of_split.1 y ?_
        simp
      rw [h.onceFront_eq, if_neg]
      · rfl
      · intro hy
        exact hslot (Option.some.inj hy)
  have herased := hindexed.erase hindexed.represents.removeAt
  rw [List.append_assoc] at herased
  rw [takeAt_eq hindexed.represents]
  exact ⟨herased, h.two_le_frequency, forall_mem_remove h.frequency_eq_one, hfront⟩

end Ranks

/-- The entry of a key is taken out. -/
theorem WellFormed.takeAt (h : c.WellFormed) (hi : c.index[k]? = some i) :
    ∃ x, c.view.find? k = some x ∧
      Agrees (c.takeAt i)
        (some x.entry, { c.view with ranked := erase Counted.key k c.view.ranked }) := by
  obtain ⟨often, once, h⟩ := h
  rcases h.place hi with ⟨as, x, bs, rfl, rfl⟩ | ⟨as, x, bs, rfl, rfl⟩
  · have hindexed := h.indexed
    rw [List.append_assoc, List.cons_append] at hindexed
    obtain ⟨hfind, herase⟩ := ranked_split hindexed
    have htaken := h.takeAt_often
    refine ⟨x, hfind, ?_, ⟨_, _, htaken⟩, ?_⟩
    · rw [takeAt_eq hindexed.represents]
    · rw [view_eq htaken.indexed, herase, List.append_assoc, takeAt_eq hindexed.represents]
      rfl
  · have hindexed := h.indexed
    rw [← List.append_assoc] at hindexed
    obtain ⟨hfind, herase⟩ := ranked_split hindexed
    have htaken := h.takeAt_once
    refine ⟨x, hfind, ?_, ⟨_, _, htaken⟩, ?_⟩
    · rw [takeAt_eq hindexed.represents]
    · rw [view_eq htaken.indexed, herase, List.append_assoc, takeAt_eq hindexed.represents]
      rfl

namespace WellFormed

theorem evict (h : c.WellFormed) : Agrees c.evict c.view.evict := by
  obtain ⟨often, once, hranks⟩ := id h
  have hindexed := hranks.indexed
  rcases List.eq_nil_or_concat' (often ++ once) with hnil | ⟨xs, ⟨i, x⟩, hl⟩
  · rw [hnil] at hindexed
    rw [Lfu.evict, hindexed.represents.backSlot_eq, view_eq hindexed]
    exact ⟨rfl, h, view_eq hindexed⟩
  · rw [hl] at hindexed
    obtain ⟨y, hfind, hfst, hwf, hview⟩ := h.takeAt hindexed.index_eq_some
    obtain ⟨hfind', herase⟩ := ranked_split hindexed
    rw [hfind'] at hfind
    obtain rfl : x = y := Option.some.inj hfind
    rw [herase, List.append_nil] at hview
    have hevict : c.evict = c.takeAt i := by
      rw [Lfu.evict, hindexed.represents.backSlot_eq, List.getLast?_concat]
      rfl
    rw [hevict, view_eq hindexed, List.map_append, List.map_singleton, Ranking.evict_concat]
    exact ⟨hfst, hwf, hview⟩

theorem makeRoom (h : c.WellFormed) : Agrees c.makeRoom c.view.makeRoom := by
  rw [Lfu.makeRoom, Ranking.makeRoom, h.isFull_eq]
  split
  · exact h.evict
  · exact ⟨rfl, h, rfl⟩

theorem remove (h : c.WellFormed) (k : κ) : Agrees (c.remove k) (c.view.remove k) := by
  rw [Lfu.remove, Ranking.remove, Ranking.peek]
  rcases hi : c.index[k]? with _ | i
  · have hnone : c.view.find? k = none := by
      rw [← h.find?_eq, Lfu.find?, hi]
      rfl
    rw [hnone, erase_eq_self (find?_eq_none_iff.1 hnone)]
    exact ⟨rfl, h, rfl⟩
  · obtain ⟨x, hfind, hfst, hwf, hview⟩ := h.takeAt hi
    rw [hfind]
    refine ⟨?_, hwf, hview⟩
    show (c.takeAt i).1.map Entry.value = _
    rw [hfst]
    rfl

end WellFormed

/-! ## Changing an entry -/

namespace Ranks

theorem modify_often (h : c.Ranks (as ++ (i, x) :: bs) once) {f : Counted κ ν → Counted κ ν}
    (hkey : ∀ x, (f x).key = x.key) (htwo : 2 ≤ (f x).frequency) :
    Ranks { c with chain := c.chain.modify i f } (as ++ (i, f x) :: bs) once where
  indexed := by
    have hindexed := h.indexed
    rw [List.append_assoc, List.cons_append] at hindexed ⊢
    exact hindexed.modify_at hkey
  two_le_frequency := forall_mem_replace h.two_le_frequency htwo
  frequency_eq_one := h.frequency_eq_one
  onceFront_eq := h.onceFront_eq

theorem modify_once (h : c.Ranks often (as ++ (i, x) :: bs)) {f : Counted κ ν → Counted κ ν}
    (hkey : ∀ x, (f x).key = x.key) (hone : (f x).frequency = 1) :
    Ranks { c with chain := c.chain.modify i f } often (as ++ (i, f x) :: bs) where
  indexed := by
    have hindexed := h.indexed
    rw [← List.append_assoc] at hindexed ⊢
    exact hindexed.modify_at hkey
  two_le_frequency := h.two_le_frequency
  frequency_eq_one := forall_mem_replace h.frequency_eq_one hone
  onceFront_eq := by
    show c.onceFront = _
    rw [h.onceFront_eq]
    cases as <;> rfl

end Ranks

/-! ## Adding an entry -/

namespace Ranks

/-- A new entry goes to the head of those used once. -/
theorem insertNew_eq (h : c.Ranks often once) (k : κ) (v : ν) :
    ∃ chain, chain.Represents (often ++ (c.chain.nextSlot, ⟨⟨k, v⟩, 1⟩) :: once) ∧
      c.insertNew k v =
        { c with
          chain
          index := c.index.insert k c.chain.nextSlot
          onceFront := some c.chain.nextSlot } := by
  have hfront := h.onceFront_eq
  cases once with
  | nil =>
    have hpush := h.indexed.represents.pushBack ⟨⟨k, v⟩, 1⟩
    rw [List.append_nil] at hpush
    refine ⟨_, hpush, ?_⟩
    rw [Lfu.insertNew, hfront, List.head?_nil, Option.map_none]
    simp only [Chain.Represents.pushBack_fst]
  | cons y once =>
    have hinsert := h.indexed.represents.insertBefore y.1 ⟨⟨k, v⟩, 1⟩
    rw [insertAhead_append_cons h.indexed.represents.distinct] at hinsert
    refine ⟨_, hinsert, ?_⟩
    rw [Lfu.insertNew, hfront, List.head?_cons, Option.map_some]
    simp only [Chain.Represents.insertBefore_fst]

theorem insertNew (h : c.Ranks often once) (hk : c.view.find? k = none) (v : ν) :
    (c.insertNew k v).Ranks often ((c.chain.nextSlot, ⟨⟨k, v⟩, 1⟩) :: once) := by
  obtain ⟨chain, hchain, heq⟩ := h.insertNew_eq k v
  rw [Ranking.find?, view_eq h.indexed] at hk
  let fresh : Counted κ ν := ⟨⟨k, v⟩, 1⟩
  have hnew : Keyed.find? Counted.key fresh.key ((often ++ once).map Prod.snd) = none := hk
  rw [heq]
  refine ⟨?_, h.two_le_frequency, ?_, rfl⟩
  · exact h.indexed.insert hnew hchain List.perm_middle
  · intro y hy
    rcases List.mem_cons.1 hy with rfl | hy
    · rfl
    · exact h.frequency_eq_one y hy

end Ranks

namespace WellFormed

theorem insertNew (h : c.WellFormed) (hk : c.view.find? k = none) (v : ν) :
    (c.insertNew k v).StandsFor (c.view.insertNew k v) := by
  obtain ⟨often, once, h⟩ := h
  have hinserted := h.insertNew hk v
  refine ⟨⟨_, _, hinserted⟩, ?_⟩
  obtain ⟨chain, -, heq⟩ := h.insertNew_eq k v
  have hplace := Ranking.insertOnce_slots h.two_le_frequency h.frequency_eq_one ⟨⟨k, v⟩, 1⟩
  rw [view_eq hinserted.indexed, Ranking.insertNew, view_eq h.indexed, hplace, List.map_append,
    List.map_cons, heq]

/-- The value of a key that is bound changes. -/
theorem modify_withValue (h : c.WellFormed) (hi : c.index[k]? = some i) (v : ν) :
    StandsFor { c with chain := c.chain.modify i (Counted.withValue v) }
      { c.view with ranked := modify Counted.key k (Counted.withValue v) c.view.ranked } := by
  obtain ⟨often, once, h⟩ := h
  rcases h.place hi with ⟨as, x, bs, rfl, rfl⟩ | ⟨as, x, bs, rfl, rfl⟩
  · have hindexed := h.indexed
    rw [List.append_assoc, List.cons_append] at hindexed
    have htwo : 2 ≤ (x.withValue v).frequency := h.two_le_frequency (i, x) (by simp)
    have hmodified := h.modify_often (f := Counted.withValue v) (fun _ => rfl) htwo
    rw [ranked_modify hindexed]
    refine ⟨⟨_, _, hmodified⟩, ?_⟩
    rw [view_eq hmodified.indexed, List.append_assoc, List.cons_append]
    rfl
  · have hindexed := h.indexed
    rw [← List.append_assoc] at hindexed
    have hone : (x.withValue v).frequency = 1 := h.frequency_eq_one (i, x) (by simp)
    have hmodified := h.modify_once (f := Counted.withValue v) (fun _ => rfl) hone
    rw [ranked_modify hindexed]
    refine ⟨⟨_, _, hmodified⟩, ?_⟩
    rw [view_eq hmodified.indexed, List.append_assoc]
    rfl

theorem put (h : c.WellFormed) (k : κ) (v : ν) : Agrees (c.put k v) (c.view.put k v) := by
  rw [Lfu.put_def, Ranking.put, Ranking.contains]
  rcases hi : c.index[k]? with _ | i
  · have hnone : c.view.find? k = none := by
      rw [← h.find?_eq, Lfu.find?, hi]
      rfl
    have hmissing : ¬(c.view.find? k).isSome = true := by rw [hnone]; exact Bool.false_ne_true
    rw [if_neg hmissing]
    obtain ⟨hfst, hwf, hview⟩ := h.makeRoom
    have hk : c.makeRoom.2.view.find? k = none := by
      rw [hview]
      exact Ranking.find?_makeRoom_of_none hnone
    obtain ⟨hwf', hview'⟩ := hwf.insertNew hk v
    exact ⟨hfst, hwf', hview'.trans (by rw [hview])⟩
  · obtain ⟨x, hfind, -⟩ := h.takeAt hi
    rw [hfind, if_pos Option.isSome_some]
    exact ⟨rfl, h.modify_withValue hi v⟩

end WellFormed

/-! ## Counting a use -/

/-- An entry whose second use has just been counted leaves those used once. -/
theorem leaveOnce_ranks
    (hindexed : c.chain.Indexed Counted.key c.index (often ++ (as ++ (i, x) :: bs)))
    (hoften : ∀ y ∈ often ++ [(i, x)], 2 ≤ y.2.frequency)
    (honce : ∀ y ∈ as ++ bs, y.2.frequency = 1)
    (hfront : c.onceFront = (as ++ (i, x) :: bs).head?.map Prod.fst) :
    (c.leaveOnce i).Ranks (often ++ [(i, x)]) (as ++ bs) ∧
      (c.leaveOnce i).capacity = c.capacity := by
  have hcut := List.append_assoc often [(i, x)] bs
  rw [← List.append_assoc] at hindexed
  cases as with
  | nil =>
    -- It is the first of them and may stay where it is.
    rw [List.append_nil] at hindexed
    have hafter : c.chain.after? i = bs.head?.map Prod.fst := hindexed.represents.after?_eq
    rw [leaveOnce, hfront, List.nil_append, List.head?_cons, Option.map_some]
    simp only [if_pos]
    refine ⟨⟨?_, hoften, honce, hafter⟩, trivial⟩
    rw [List.nil_append, hcut]
    exact hindexed
  | cons y as =>
    have hne : y.1 ≠ i := by
      refine hindexed.represents.distinct.ne_of_split.1 y ?_
      simp
    have hahead : (often ++ y :: as) ++ bs = often ++ y :: (as ++ bs) := by
      rw [List.append_assoc, List.cons_append]
    have hmoved := hindexed.represents.moveBefore hahead
    rw [leaveOnce, hfront, List.cons_append, List.head?_cons, Option.map_some]
    simp only [if_neg hne]
    refine ⟨⟨?_, hoften, honce, rfl⟩, trivial⟩
    rw [List.append_assoc]
    refine hindexed.relink hmoved ?_
    calc (often ++ (i, x) :: y :: (as ++ bs)).Perm ((i, x) :: (often ++ y :: (as ++ bs))) :=
          List.perm_middle
      _ = (i, x) :: (often ++ y :: as ++ bs) := by rw [hahead]
      List.Perm _ (often ++ y :: as ++ (i, x) :: bs) := List.perm_middle.symm

/-- Two neighbours that were used more than once may change places. -/
theorem Ranks.swap {j : Slot} {y : Counted κ ν}
    (h : c.Ranks ((as ++ [(j, y)]) ++ (i, x) :: bs) once) :
    Ranks { c with chain := (c.chain.moveBefore i j).2 } (as ++ (i, x) :: (j, y) :: bs) once := by
  have hindexed := h.indexed
  rw [List.append_assoc, List.cons_append] at hindexed
  have hcut : (as ++ [(j, y)]) ++ (bs ++ once) = as ++ (j, y) :: (bs ++ once) := by
    rw [List.append_assoc, List.singleton_append]
  have hmoved := hindexed.relink (hindexed.represents.moveBefore hcut) (by
    rw [List.append_assoc, List.singleton_append]
    exact (List.Perm.swap _ _ _).append_left as)
  refine ⟨?_, ?_, h.frequency_eq_one, h.onceFront_eq⟩
  · rw [List.append_assoc]
    exact hmoved
  · intro z hz
    apply h.two_le_frequency
    simp only [List.mem_append, List.mem_cons] at hz ⊢
    tauto

/-- An entry used more than once may go past the one ahead of it. -/
theorem Ranks.overtake (h : c.Ranks (as ++ (i, x) :: bs) once) :
    ∃ often, (c.overtake i).Ranks often once ∧ (i, x) ∈ often ∧
      (c.overtake i).view = { c.view with ranked := Ranking.overtake x.key c.view.ranked } := by
  have hindexed := h.indexed
  rw [List.append_assoc, List.cons_append] at hindexed
  have hview := view_eq hindexed
  have hbefore := hindexed.represents.before?_eq
  have hmem : (i, x) ∈ as ++ (i, x) :: bs := by simp
  rcases List.eq_nil_or_concat' as with rfl | ⟨as, ⟨j, y⟩, rfl⟩
  · -- Nothing is ahead of it.
    have hkeep : c.overtake i = c := by
      rw [Lfu.overtake, hbefore]
      rfl
    have hd := hindexed.distinct_values
    rw [List.nil_append, List.map_cons] at hview hd
    rw [hkeep, hview, Ranking.overtake_of_tail (distinct_cons_iff.1 hd).1]
    exact ⟨_, h, hmem, rfl⟩
  · have hd := hindexed.distinct_values
    have hx := frequencyAt_eq hindexed.represents
    rw [List.append_assoc, List.singleton_append] at hindexed hview hd
    have hy := frequencyAt_eq hindexed.represents
    rw [List.map_append, List.map_cons, List.map_cons] at hview hd
    rw [List.getLast?_concat, Option.map_some] at hbefore
    rw [hview, Ranking.overtake_append hd]
    by_cases hlt : y.frequency < x.frequency
    · have hovertake : c.overtake i = { c with chain := (c.chain.moveBefore i j).2 } := by
        rw [Lfu.overtake, hbefore]
        simp only [hx, hy, if_pos hlt]
      rw [if_pos hlt, hovertake]
      refine ⟨_, h.swap, by simp, ?_⟩
      rw [view_eq h.swap.indexed]
      simp
    · have hkeep : c.overtake i = c := by
        rw [Lfu.overtake, hbefore]
        simp only [hx, hy, if_neg hlt]
      rw [if_neg hlt, hkeep, hview]
      exact ⟨_, h, hmem, rfl⟩

/-- A use of an entry that was used more than once before. -/
theorem Ranks.countUse_often (h : c.Ranks (as ++ (i, x) :: bs) once) :
    ∃ often, (c.countUse i).Ranks often once ∧ (i, x.used) ∈ often ∧
      (c.countUse i).view = c.view.use x.key := by
  have hindexed := h.indexed
  rw [List.append_assoc, List.cons_append] at hindexed
  have htwo : 2 ≤ x.frequency := h.two_le_frequency (i, x) (by simp)
  have hne : x.frequency ≠ 1 := by omega
  have hmodified := h.modify_often (f := Counted.used) (fun _ => rfl)
    (Counted.two_le_frequency_used (by omega))
  have hcount :
      c.countUse i = Lfu.overtake { c with chain := c.chain.modify i Counted.used } i := by
    rw [Lfu.countUse, frequencyAt_eq hindexed.represents, beq_false_of_ne hne]
    rfl
  obtain ⟨often, hover, hmem, hview⟩ := hmodified.overtake
  refine ⟨often, ?_, hmem, ?_⟩
  · rw [hcount]
    exact hover
  · rw [hcount, hview, Ranking.use, (ranked_split hindexed).1]
    simp only [if_neg hne]
    rw [ranked_modify hindexed, view_eq hmodified.indexed, List.append_assoc, List.cons_append]
    rfl

/-- An entry used a second time goes to the end of those used more than once. -/
theorem Ranks.insertOnce_used (h : c.Ranks often (as ++ (i, x) :: bs)) :
    Ranking.insertOnce x.used (erase Counted.key x.key
      (modify Counted.key x.key Counted.used c.view.ranked)) =
      (often ++ [(i, x.used)] ++ (as ++ bs)).map Prod.snd := by
  have hindexed := h.indexed
  rw [← List.append_assoc] at hindexed
  have hcounted := hindexed.modify_at (f := Counted.used) (fun _ => rfl)
  have herase := (ranked_split (c := { c with chain := c.chain.modify i Counted.used }) hcounted).2
  rw [view_eq (c := { c with chain := c.chain.modify i Counted.used }) hcounted] at herase
  rw [ranked_modify hindexed]
  refine (congrArg (Ranking.insertOnce x.used) herase).trans ?_
  rw [List.append_assoc, Ranking.insertOnce_slots h.two_le_frequency
    (forall_mem_remove h.frequency_eq_one), List.map_append, List.map_append]
  simp

/-- The second use of an entry. -/
theorem Ranks.countUse_once (h : c.Ranks often (as ++ (i, x) :: bs)) :
    ∃ often, (c.countUse i).Ranks often (as ++ bs) ∧ (i, x.used) ∈ often ∧
      (c.countUse i).view = c.view.use x.key := by
  have hindexed := h.indexed
  rw [← List.append_assoc] at hindexed
  have hone : x.frequency = 1 := h.frequency_eq_one (i, x) (by simp)
  have hmodified := hindexed.modify_at (f := Counted.used) (fun _ => rfl)
  rw [List.append_assoc] at hmodified
  have hoften : ∀ y ∈ often ++ [(i, x.used)], 2 ≤ y.2.frequency := by
    intro y hy
    rcases List.mem_append.1 hy with hy | hy
    · exact h.two_le_frequency y hy
    · rw [List.mem_singleton.1 hy]
      exact Counted.two_le_frequency_used hone.ge
  have hfront : c.onceFront = (as ++ (i, x.used) :: bs).head?.map Prod.fst := by
    rw [h.onceFront_eq]
    cases as <;> rfl
  obtain ⟨hleft, hcapacity⟩ :=
    leaveOnce_ranks (c := { c with chain := c.chain.modify i Counted.used }) hmodified hoften
      (forall_mem_remove h.frequency_eq_one) hfront
  have hcount : c.countUse i =
      (leaveOnce { c with chain := c.chain.modify i Counted.used } i).overtake i := by
    rw [Lfu.countUse, frequencyAt_eq hindexed.represents, hone]
    rfl
  obtain ⟨often', hover, hmem, hview⟩ := hleft.overtake
  refine ⟨often', ?_, hmem, ?_⟩
  · rw [hcount]
    exact hover
  · rw [hcount, hview, view_eq hleft.indexed, hcapacity, Ranking.use, (ranked_split hindexed).1]
    simp only [if_pos hone]
    rw [h.insertOnce_used]
    rfl

/-- A use is counted, and the entry is still found in its slot. -/
theorem Ranks.countUse (h : c.Ranks often once) (hi : c.index[k]? = some i) :
    ∃ x often' once', c.view.find? k = some x ∧ (c.countUse i).Ranks often' once' ∧
      (i, x.used) ∈ often' ∧ (c.countUse i).view = c.view.use k := by
  rcases h.place hi with ⟨as, x, bs, rfl, rfl⟩ | ⟨as, x, bs, rfl, rfl⟩
  · have hindexed := h.indexed
    rw [List.append_assoc, List.cons_append] at hindexed
    obtain ⟨often', hranks, hmem, hview⟩ := h.countUse_often
    exact ⟨x, often', once, (ranked_split hindexed).1, hranks, hmem, hview⟩
  · have hindexed := h.indexed
    rw [← List.append_assoc] at hindexed
    obtain ⟨often', hranks, hmem, hview⟩ := h.countUse_once
    exact ⟨x, often', as ++ bs, (ranked_split hindexed).1, hranks, hmem, hview⟩

namespace WellFormed

theorem get (h : c.WellFormed) (k : κ) : Agrees (c.get k) (c.view.get k) := by
  rcases hi : c.index[k]? with _ | i
  · have hnone : c.view.find? k = none := by
      rw [← h.find?_eq, Lfu.find?, hi]
      rfl
    rw [Lfu.get_def, hi, Ranking.get, Ranking.peek, Ranking.use, hnone]
    exact ⟨rfl, h, rfl⟩
  · obtain ⟨often, once, h⟩ := h
    obtain ⟨x, often', once', hfind, hranks, hmem, hview⟩ := h.countUse hi
    have hget : (c.countUse i).chain.get? i = some x.used :=
      hranks.indexed.represents.get?_eq_some_iff.2 (List.mem_append_left _ hmem)
    rw [Lfu.get_def, hi, Ranking.get, Ranking.peek, hfind]
    refine ⟨?_, ⟨_, _, hranks⟩, hview⟩
    show ((c.countUse i).chain.get? i).map (·.entry.value) = _
    rw [hget]
    rfl

/-- A lookup signals whether it finds a value. -/
theorem getAloud_eq (h : c.WellFormed) (k : κ) : c.getAloud k = announceLookup (c.get k) := by
  rcases hi : c.index[k]? with _ | i
  · rw [getAloud, Lfu.get_def, hi]
    rfl
  · obtain ⟨often, once, h⟩ := h
    obtain ⟨x, often', once', -, hranks, hmem, -⟩ := h.countUse hi
    have hget : (c.countUse i).chain.get? i = some x.used :=
      hranks.indexed.represents.get?_eq_some_iff.2 (List.mem_append_left _ hmem)
    rw [getAloud, Lfu.get_def, hi]
    exact Aloud.announceLookup_of_isSome (congrArg (Option.isSome <| ·.map (·.entry.value)) hget)

end WellFormed

/-! ## Changing the capacity -/

/-- The capacity after a change, and the entries that had to go. -/
def shrink (c : Lfu κ ν) (n : Nat) : List (Entry κ ν) × Lfu κ ν :=
  ((evictMany evict (c.size - n) c).1, { (evictMany evict (c.size - n) c).2 with capacity := n })

theorem resize_eq (c : Lfu κ ν) (n : Nat) :
    c.resize n = if n = 0 then .error .zeroCapacity else .ok (c.shrink n) := by
  rw [resize_def, requireCapacity]
  split <;> rfl

theorem evict_matches (c : Lfu κ ν) (m : Ranking κ ν) (h : c.StandsFor m) :
    Agrees c.evict m.evict := by
  obtain ⟨hwf, rfl⟩ := h
  exact hwf.evict

theorem WellFormed.shrink (h : c.WellFormed) (n : Nat) :
    Agrees (c.shrink n) (c.view.shrink n) := by
  obtain ⟨hfst, ⟨often, once, hranks⟩, hview⟩ :=
    evictMany_matches evict_matches ⟨h, rfl⟩ (c.view.ranked.length - n)
  rw [Ranking.evictMany_excess] at hfst hview
  rw [← h.size_eq] at hfst hranks hview
  refine ⟨hfst, ⟨often, once, ?_⟩, ?_⟩
  · exact ⟨hranks.indexed, hranks.two_le_frequency, hranks.frequency_eq_one, hranks.onceFront_eq⟩
  · have hranked := congrArg Ranking.ranked hview
    rw [view, show (c.shrink n).2.chain.toList = _ from hranked]
    rfl

theorem clear_standsFor (c : Lfu κ ν) : c.clear.StandsFor c.view.clear := by
  refine ⟨⟨[], [], empty_ranks c.capacity⟩, ?_⟩
  show (empty c.capacity : Lfu κ ν).view = _
  rw [view_eq (empty_ranks c.capacity).indexed]
  rfl

/-! ## Refinement -/

/-- A store acts like the list that it stands for. -/
theorem simulation : Store.Simulation (StandsFor : Lfu κ ν → Ranking κ ν → Prop) where
  size_eq := by
    rintro c _ ⟨h, rfl⟩
    exact h.size_eq
  contains_eq := by
    rintro c _ ⟨h, rfl⟩
    exact h.contains_eq
  peek_eq := by
    rintro c _ ⟨h, rfl⟩
    exact h.peek_eq
  get := by
    rintro c _ ⟨h, rfl⟩
    exact h.get
  signals_get := by
    rintro c _ ⟨h, rfl⟩ k
    exact Store.signals_get_eq (h.getAloud_eq k) rfl (h.get k)
  put := by
    rintro c _ ⟨h, rfl⟩
    exact h.put
  remove := by
    rintro c _ ⟨h, rfl⟩
    exact h.remove
  evict := by
    rintro c _ ⟨h, rfl⟩
    exact h.evict
  clear := by
    rintro c _ ⟨-, rfl⟩
    exact clear_standsFor c
  resize := by
    rintro c _ ⟨h, rfl⟩ n
    show MatchesIfDone _ (c.resize n) (Store.resize c.view n)
    rw [resize_eq, Ranking.store_resize_eq, Ranking.resize]
    split
    · rfl
    · exact h.shrink n
  setSamples h _ := h

/-- The entries used once end the chain, from the remembered slot on; no slot is remembered just
when there are none of them. -/
structure MarksOnce (c : Lfu κ ν) : Prop where
  suffix : ∃ often once, c.chain.toSlots = often ++ once ∧
    (∀ x ∈ often, x.2.frequency ≠ 1) ∧ (∀ x ∈ once, x.2.frequency = 1) ∧
    c.onceFront = once.head?.map Prod.fst
  onceFront_eq_none_iff : c.onceFront = none ↔ ∀ x ∈ c.chain.toSlots, x.2.frequency ≠ 1

theorem WellFormed.marksOnce (h : c.WellFormed) : c.MarksOnce := by
  obtain ⟨often, once, h⟩ := h
  have hslots := h.indexed.represents.toSlots_eq
  have hoften : ∀ x ∈ often, x.2.frequency ≠ 1 := by
    intro x hx
    have htwo := h.two_le_frequency x hx
    omega
  refine ⟨⟨often, once, hslots, hoften, h.frequency_eq_one, h.onceFront_eq⟩, ?_⟩
  rw [h.onceFront_eq, hslots]
  cases once with
  | nil =>
    rw [List.append_nil]
    exact ⟨fun _ => hoften, fun _ => rfl⟩
  | cons x once =>
    constructor
    · intro hnone
      exact absurd hnone (Option.some_ne_none x.1)
    · intro hne
      exact absurd (h.frequency_eq_one x List.mem_cons_self) (hne x (by simp))

/-- From a new store on, any actions are answered and announced as the plain list does it;
afterwards both list the same entries, with the same number of uses, and would drop the same one
next. The slot of the first entry used once is right in every state. -/
theorem actAll_refines_ranking {capacity : Nat} {c : Lfu κ ν} (hc : create capacity = .ok c)
    (listener : Option Nat) (actions : List (Observed.Action κ ν)) :
    let run := Observed.actAll { store := c, listener } actions
    let model := Observed.actAll { store := ({ capacity } : Ranking κ ν), listener } actions
    run.1 = model.1 ∧
      run.2.tally = model.2.tally ∧
      run.2.store.capacity = model.2.store.capacity ∧
      run.2.store.size = model.2.store.ranked.length ∧
      run.2.store.entries = model.2.store.entries ∧
      run.2.store.next? = model.2.store.next? ∧
      (∀ k, run.2.store.frequency? k = model.2.store.frequency? k) ∧
      run.2.store.MarksOnce := by
  intro run model
  have hstart : StandsFor c { capacity } := by
    have hempty : c = empty capacity := by
      rw [create, requireCapacity] at hc
      split at hc
      · cases hc
      · exact (Except.ok.inj hc).symm
    rw [hempty]
    exact ⟨⟨[], [], empty_ranks capacity⟩, view_eq (empty_ranks capacity).indexed⟩
  have halike : Observed.Alike StandsFor { store := c, listener }
      { store := ({ capacity } : Ranking κ ν), listener } := ⟨hstart, rfl, rfl⟩
  obtain ⟨hfst, ⟨hwf, hview⟩, htally, -⟩ := Observed.actAll_matches simulation halike actions
  refine ⟨hfst, htally, ?_, ?_, ?_, ?_, ?_, hwf.marksOnce⟩
  · exact congrArg Ranking.capacity hview
  · rw [hwf.size_eq, hview]
  · rw [hwf.entries_eq, hview]
  · rw [hwf.next?_eq, hview]
  · intro k
    rw [hwf.frequency?_eq, hview]

/-- Two keys, one of them used again: the other one gives way to a third. -/
theorem actAll_refines_ranking_two :
    create 2 = .ok (empty 2 : Lfu Nat Nat) ∧
      (Observed.actAll { store := (empty 2 : Lfu Nat Nat), listener := some 7 }
        [.request (.put 1 10), .request (.get 1), .request (.put 2 20), .request (.put 3 30)]).1 =
      [⟨.put 1 10, .entry none, [], []⟩, ⟨.get 1, .value (some 10), [], []⟩,
        ⟨.put 2 20, .entry none, [], []⟩,
        ⟨.put 3 30, .entry (some ⟨2, 20⟩), [⟨2, 20⟩], [⟨7, ⟨2, 20⟩⟩]⟩] := by
  have hc : create 2 = .ok (empty 2 : Lfu Nat Nat) := rfl
  exact ⟨hc, (actAll_refines_ranking hc (some 7) _).1.trans (by decide)⟩

end Lfu

end BoundedCache
