import BoundedCache.Proofs.Lfu.Lawful

/-!
# Rankings recall the stays of their keys

A key stays from the turn in which it enters to the one in which it goes, and is found a number of
times meanwhile. The number of uses of an entry is told by its stay, and so is the place of those
that were never found: they end the list, the one that entered first at its very end. The other
entries are sorted only locally, so of their order no more is known than how a use changes it.

## Main definitions

- `Observed.Stay`, `Observed.stay` — since when a key is bound, and how often it was found since
- `Ranking.Separated` — the entries used once end the list
- `Ranking.Recalls` — a list is what the stays of the keys make of it

## Main results

- `Ranking.exists_use` — what a use does to the list
- `Ranking.Recalls.place` — an element is placed between others that stay
- `Ranking.Valid.recalls_perform`, `Ranking.Valid.recalls_actAll` — one request, and any actions
- `Ranking.Recalls.earliest` — the first to go of those that were never found
-/

namespace BoundedCache

open Keyed Observed

/-! ## Stays -/

namespace Observed

variable {κ ν : Type} [DecidableEq κ] {k : κ} {turn : Turn κ ν} {turns : List (Turn κ ν)}

/-- The turn in which a key entered, counted from the start, and how often it was found since. -/
structure Stay where
  since : Nat
  hits : Nat := 0

/-- The number of uses of an entry; that it entered counts as the first one. -/
def Stay.frequency (s : Stay) : Nat := min (s.hits + 1) Lfu.maxFrequency

/-- The turn unbinds the key, whether that was asked for or the key had to give way. -/
def Turn.ends (turn : Turn κ ν) (key : κ) : Bool :=
  match turn.request with
  | .remove k => k = key
  | .clear => true
  | _ => key ∈ keys turn.reported

/-- What becomes of the stay of a key in a turn that does not end it. -/
def Turn.continues (turn : Turn κ ν) (time : Nat) (key : κ) (before : Option Stay) : Option Stay :=
  match turn.request with
  | .put k _ => if k = key then some (before.getD { since := time }) else before
  | .get k =>
    if k = key ∧ turn.isHit then before.map fun s => { s with hits := s.hits + 1 } else before
  | _ => before

/-- What becomes of the stay of a key in a turn. -/
def Turn.stay (turn : Turn κ ν) (time : Nat) (key : κ) (before : Option Stay) : Option Stay :=
  if turn.ends key then none else turn.continues time key before

/-- The stay of a key, told from the last turn backward. -/
def stayBack (key : κ) : List (Turn κ ν) → Option Stay
  | [] => none
  | turn :: earlier => turn.stay earlier.length key (stayBack key earlier)

/-- The stay of a key after some turns, if it is bound then. -/
def stay (key : κ) (turns : List (Turn κ ν)) : Option Stay := stayBack key turns.reverse

/-- The turn in which a key entered that is bound. -/
def since (key : κ) (turns : List (Turn κ ν)) : Nat := (stay key turns).elim 0 Stay.since

theorem stay_concat (key : κ) (turns : List (Turn κ ν)) (turn : Turn κ ν) :
    stay key (turns ++ [turn]) = turn.stay turns.length key (stay key turns) := by
  rw [stay, List.reverse_concat, stayBack, List.length_reverse]
  rfl

/-- A key entered in this turn, or in the one in which it had entered before. -/
theorem Turn.since_of_continues {time : Nat} {before : Option Stay} {s : Stay}
    (h : turn.continues time k before = some s) :
    s.since = time ∨ ∃ s', before = some s' ∧ s.since = s'.since := by
  have hsame (h : before = some s) : ∃ s', before = some s' ∧ s.since = s'.since := ⟨s, h, rfl⟩
  rw [continues] at h
  split at h
  · split at h
    · cases before with
      | none => exact .inl (congrArg Stay.since (Option.some.inj h)).symm
      | some s' => exact .inr (hsame h)
    · exact .inr (hsame h)
  · split at h
    · obtain ⟨s', hs', rfl⟩ := Option.map_eq_some_iff.1 h
      exact .inr ⟨s', hs', rfl⟩
    · exact .inr (hsame h)
  · exact .inr (hsame h)

theorem since_lt {s : Stay} (h : stay k turns = some s) : s.since < turns.length := by
  induction turns using List.reverseRecOn generalizing s with
  | nil => exact absurd h.symm (Option.some_ne_none s)
  | append_singleton turns turn ih =>
    rw [stay_concat, Turn.stay] at h
    rw [List.length_append, List.length_singleton]
    split at h
    · cases h
    · rcases Turn.since_of_continues h with htime | ⟨s', hs', hsince⟩
      · omega
      · have hlt := ih hs'
        omega

theorem Stay.frequency_eq_one_iff (s : Stay) : s.frequency = 1 ↔ s.hits = 0 := by
  have hmax : 2 ≤ Lfu.maxFrequency := by decide
  rw [frequency]
  omega

end Observed

/-! ## Separated lists -/

namespace Ranking

variable {κ ν : Type} {x new : Counted κ ν} {l as bs kept gone : List (Counted κ ν)}

/-- Those used once end the list. -/
def Separated (l : List (Counted κ ν)) : Prop :=
  l.Pairwise fun x y => x.frequency = 1 → y.frequency = 1

theorem Separated.exists_split (h : Separated l) :
    ∃ often once, l = often ++ once ∧ (∀ x ∈ often, x.frequency ≠ 1) ∧
      ∀ x ∈ once, x.frequency = 1 := by
  induction l with
  | nil => exact ⟨[], [], rfl, by simp, by simp⟩
  | cons x l ih =>
    obtain ⟨hx, hl⟩ := List.pairwise_cons.1 h
    by_cases hone : x.frequency = 1
    · exact ⟨[], x :: l, rfl, by simp, List.forall_mem_cons.2 ⟨hone, fun y hy => hx y hy hone⟩⟩
    · obtain ⟨often, once, rfl, hoften, honce⟩ := ih hl
      exact ⟨x :: often, once, rfl, List.forall_mem_cons.2 ⟨hone, hoften⟩, honce⟩

/-- Once an element that was used once has been added, the last one was used once. -/
theorem Separated.frequency_getLast?_insertOnce (h : Separated l) (hnew : new.frequency = 1)
    (hx : (insertOnce new l).getLast? = some x) : x.frequency = 1 := by
  obtain ⟨often, once, rfl, hoften, honce⟩ := h.exists_split
  rw [insertOnce_append hoften honce, List.getLast?_append_cons] at hx
  rcases List.mem_cons.1 (List.mem_of_getLast? hx) with rfl | hmem
  · exact hnew
  · exact honce x hmem

variable [DecidableEq κ]

/-- A step past a neighbour is none, or it is one past an element that is used less often. -/
theorem exists_overtake (h : Distinct Counted.key (as ++ x :: bs)) :
    ∃ above overtaken, as = above ++ overtaken ∧
      overtake x.key (as ++ x :: bs) = above ++ x :: (overtaken ++ bs) ∧
      ∀ y ∈ overtaken, y.frequency < x.frequency := by
  rcases List.eq_nil_or_concat' as with rfl | ⟨as, y, rfl⟩
  · exact ⟨[], [], rfl, overtake_of_tail (distinct_cons_iff.1 h).1, by simp⟩
  · rw [List.append_assoc, List.singleton_append] at h ⊢
    rw [overtake_append h]
    split
    · next hlt => exact ⟨as, [y], rfl, rfl, by simpa using hlt⟩
    · exact ⟨as ++ [y], [], by simp, by simp, by simp⟩

/-- A use moves its element past some that are used less often, and ahead of all that are used
once. -/
theorem exists_use {m : Ranking κ ν} {k : κ} (h : m.Valid) (hs : Separated m.ranked)
    (hpos : ∀ x ∈ m.ranked, 1 ≤ x.frequency) (hx : m.find? k = some x) :
    ∃ above overtaken below, m.ranked = above ++ overtaken ++ x :: below ∧
      (m.use k).ranked = above ++ x.used :: (overtaken ++ below) ∧
      (∀ y ∈ overtaken, y.frequency < x.used.frequency) ∧ ∀ y ∈ above, y.frequency ≠ 1 := by
  obtain ⟨xs, ys, hranked, rfl⟩ := exists_split_of_find?_eq_some hx
  have hd : Distinct Counted.key (xs ++ x :: ys) := hranked ▸ h.distinct
  have hd' : Distinct Counted.key (xs ++ x.used :: ys) := by
    have hkeys : (xs ++ x.used :: ys).map Counted.key = (xs ++ x :: ys).map Counted.key := by
      rw [List.map_append, List.map_append]
      rfl
    rw [Distinct, hkeys]
    exact hd
  have htwo : 2 ≤ x.used.frequency :=
    Counted.two_le_frequency_used (hpos x (by rw [hranked]; simp))
  rw [hranked] at hs
  rw [use, hx]
  dsimp only
  rw [hranked, modify_append_cons hd]
  obtain ⟨hxs, hys, hcross⟩ := List.pairwise_append.1 hs
  obtain ⟨hxy, -⟩ := List.pairwise_cons.1 hys
  split
  · next hone =>
    obtain ⟨often, as, rfl, hoften, has⟩ := Separated.exists_split hxs
    have honce : ∀ y ∈ as ++ ys, y.frequency = 1 :=
      List.forall_mem_append.2 ⟨has, fun y hy => hxy y hy hone⟩
    have hmoved : Distinct Counted.key (often ++ x.used :: (as ++ ys)) := by
      refine hd'.perm (List.perm_middle.trans (.trans (.of_eq ?_) List.perm_middle.symm))
      rw [List.append_assoc]
    rw [show x.key = x.used.key from rfl, erase_append_cons hd', List.append_assoc often as ys,
      insertOnce_append hoften honce]
    obtain ⟨above, overtaken, rfl, hover, hlt⟩ := exists_overtake hmoved
    refine ⟨above, overtaken ++ as, ys, ?_, ?_, ?_,
      fun y hy => hoften y (List.mem_append_left _ hy)⟩
    · rw [List.append_assoc above]
    · rw [hover, List.append_assoc overtaken]
    · refine List.forall_mem_append.2 ⟨hlt, fun y hy => ?_⟩
      have hy := has y hy
      omega
  · next hne =>
    obtain ⟨above, overtaken, rfl, hover, hlt⟩ := exists_overtake hd'
    refine ⟨above, overtaken, ys, rfl, hover, hlt, fun y hy hone => hne ?_⟩
    exact hcross y (List.mem_append_left _ hy) x List.mem_cons_self hone

/-! ## Lists and stays -/

variable {m : Ranking κ ν} {k : κ} {turn : Turn κ ν} {turns : List (Turn κ ν)}

/-- What an element says of one behind it: if it was never found, then the other one was not either,
and entered earlier. -/
def Ahead (turns : List (Turn κ ν)) (x y : Counted κ ν) : Prop :=
  x.frequency = 1 → y.frequency = 1 ∧ since y.key turns < since x.key turns

/-- A list is what the stays of the keys make of it. -/
structure Recalls (turns : List (Turn κ ν)) (l : List (Counted κ ν)) : Prop where
  stay_eq : ∀ x ∈ l, (stay x.key turns).map Stay.frequency = some x.frequency
  unbound : ∀ k, k ∉ l.map Counted.key → stay k turns = none
  /-- Those that were never found end the list, the one that entered first at its very end. -/
  order : l.Pairwise (Ahead turns)

namespace Recalls

theorem nil : Recalls ([] : List (Turn κ ν)) [] where
  stay_eq _ hx := absurd hx List.not_mem_nil
  unbound _ _ := rfl
  order := .nil

theorem separated (h : Recalls turns l) : Separated l := h.order.imp fun hxy hx => (hxy hx).1

theorem one_le_frequency (h : Recalls turns l) (hx : x ∈ l) : 1 ≤ x.frequency := by
  obtain ⟨s, -, hs⟩ := Option.map_eq_some_iff.1 (h.stay_eq x hx)
  have hmax : 2 ≤ Lfu.maxFrequency := by decide
  rw [← hs, Stay.frequency]
  omega

/-- Elements whose stays go on stay in order. -/
theorem order_of_kept {l' : List (Counted κ ν)} (h : Recalls turns l) (hsub : l'.Sublist l)
    (hkept : ∀ x ∈ l', stay x.key (turns ++ [turn]) = stay x.key turns) :
    l'.Pairwise (Ahead (turns ++ [turn])) := by
  refine (h.order.sublist hsub).imp_of_mem fun hx hy hxy => ?_
  rw [Ahead, since, since, hkept _ hx, hkept _ hy]
  exact hxy

/-- Some elements stay, and what the turn unbinds has gone. -/
theorem keep {l' : List (Counted κ ν)} (h : Recalls turns l) (hsub : l'.Sublist l)
    (hkept : ∀ x ∈ l', stay x.key (turns ++ [turn]) = stay x.key turns)
    (hgone : ∀ k, k ∉ l'.map Counted.key → stay k (turns ++ [turn]) = none) :
    Recalls (turns ++ [turn]) l' where
  stay_eq x hx := by
    rw [hkept x hx]
    exact h.stay_eq x (hsub.subset hx)
  unbound := hgone
  order := h.order_of_kept hsub hkept

/-- Nothing happens to any stay. -/
theorem same (h : Recalls turns l)
    (hturn : ∀ k, stay k (turns ++ [turn]) = stay k turns) : Recalls (turns ++ [turn]) l :=
  h.keep (.refl _) (fun x _ => hturn x.key) fun k hk => (hturn k).trans (h.unbound k hk)

/-- The elements change in what no stay tells. -/
theorem map {f : Counted κ ν → Counted κ ν} (h : Recalls turns l)
    (hkey : ∀ x, (f x).key = x.key) (hfrequency : ∀ x, (f x).frequency = x.frequency) :
    Recalls turns (l.map f) where
  stay_eq := by
    refine List.forall_mem_map.2 fun x hx => ?_
    rw [hkey, hfrequency]
    exact h.stay_eq x hx
  unbound k hk := by
    refine h.unbound k fun hmem => hk ?_
    rw [List.map_map]
    obtain ⟨x, hx, rfl⟩ := List.mem_map.1 hmem
    exact List.mem_map.2 ⟨x, hx, hkey x⟩
  order := by
    rw [List.pairwise_map]
    simp only [Ahead, hkey, hfrequency]
    exact h.order

omit [DecidableEq κ] in
theorem mem_keys_told (gone : List (Counted κ ν)) (k : κ) :
    k ∈ keys (gone.map Counted.entry).reverse ↔ k ∈ gone.map Counted.key := by
  simp [keys, Counted.key]

omit [DecidableEq κ] in
theorem not_mem_gone (hd : Distinct Counted.key (kept ++ gone)) :
    ∀ x ∈ kept, x.key ∉ gone.map Counted.key := by
  intro x hx hmem
  obtain ⟨y, hy, hkey⟩ := List.mem_map.1 hmem
  exact (distinct_append_iff.1 hd).2.2 x hx y hy hkey.symm

/-- The elements at the end give way, and nothing else happens. -/
theorem shed (h : Recalls turns (kept ++ gone)) (hd : Distinct Counted.key (kept ++ gone))
    (hreported : turn.reported = (gone.map Counted.entry).reverse)
    (hturn : ∀ k before, turn.stay turns.length k before =
      if decide (k ∈ keys turn.reported) then none else before) :
    Recalls (turns ++ [turn]) kept := by
  have hstay : ∀ k, stay k (turns ++ [turn]) =
      if k ∈ gone.map Counted.key then none else stay k turns := by
    intro k
    rw [stay_concat, hturn, hreported]
    simp only [mem_keys_told, decide_eq_true_eq]
  refine h.keep (List.sublist_append_left ..) (fun x hx => ?_) fun k hk => ?_
  · rw [hstay, if_neg (not_mem_gone hd x hx)]
  · rw [hstay]
    split
    · rfl
    · next hstays =>
      refine h.unbound k ?_
      rw [List.map_append, List.mem_append, not_or]
      exact ⟨hk, hstays⟩

/-- An element is placed between others that stay. Those ahead of it were found before. -/
theorem place (h : Recalls turns l) (hsub : (as ++ bs).Sublist l)
    (hkept : ∀ x ∈ as ++ bs, stay x.key (turns ++ [turn]) = stay x.key turns)
    (hnew : (stay new.key (turns ++ [turn])).map Stay.frequency = some new.frequency)
    (hgone : ∀ k, k ≠ new.key → k ∉ (as ++ bs).map Counted.key → stay k (turns ++ [turn]) = none)
    (has : ∀ x ∈ as, x.frequency ≠ 1) (hbs : ∀ y ∈ bs, Ahead (turns ++ [turn]) new y) :
    Recalls (turns ++ [turn]) (as ++ new :: bs) where
  stay_eq := by
    have hold : ∀ x ∈ as ++ bs,
        (stay x.key (turns ++ [turn])).map Stay.frequency = some x.frequency := by
      intro x hx
      rw [hkept x hx]
      exact h.stay_eq x (hsub.subset hx)
    rw [List.forall_mem_append] at hold
    exact List.forall_mem_append.2 ⟨hold.1, List.forall_mem_cons.2 ⟨hnew, hold.2⟩⟩
  unbound k hk := by
    simp only [List.map_append, List.map_cons, List.mem_append, List.mem_cons, not_or] at hk
    refine hgone k hk.2.1 ?_
    rw [List.map_append, List.mem_append, not_or]
    exact ⟨hk.1, hk.2.2⟩
  order := by
    obtain ⟨hleft, hright, -⟩ := List.pairwise_append.1 (h.order_of_kept hsub hkept)
    refine List.pairwise_append.2 ⟨hleft, List.pairwise_cons.2 ⟨hbs, hright⟩, ?_⟩
    exact fun x hx _ _ hone => absurd hone (has x hx)

/-- A new key enters, once the elements at the end have given way. -/
theorem enter (h : Recalls turns (kept ++ gone)) (hd : Distinct Counted.key (kept ++ gone))
    (hk : k ∉ (kept ++ gone).map Counted.key) (v : ν)
    (hturn : ∀ k', stay k' (turns ++ [turn]) =
      if k' ∈ gone.map Counted.key then none
      else if k = k' then some ((stay k' turns).getD { since := turns.length })
      else stay k' turns) :
    Recalls (turns ++ [turn]) (insertOnce ⟨⟨k, v⟩, 1⟩ kept) := by
  have hsub : kept.Sublist (kept ++ gone) := List.sublist_append_left ..
  have hnone := h.unbound k hk
  rw [List.map_append, List.mem_append, not_or] at hk
  have hkept : ∀ x ∈ kept, stay x.key (turns ++ [turn]) = stay x.key turns := by
    intro x hx
    have hne : k ≠ x.key := fun heq => hk.1 (heq ▸ List.mem_map_of_mem hx)
    rw [hturn, if_neg (not_mem_gone hd x hx), if_neg hne]
  have hnew : stay k (turns ++ [turn]) = some { since := turns.length } := by
    rw [hturn, if_neg hk.2, if_pos rfl, hnone]
    rfl
  obtain ⟨often, once, rfl, hoften, honce⟩ := Separated.exists_split (h.separated.sublist hsub)
  rw [insertOnce_append hoften honce]
  refine h.place hsub hkept ?_ (fun k' hne hk' => ?_) hoften fun y hy _ => ⟨honce y hy, ?_⟩
  · show (stay k (turns ++ [turn])).map Stay.frequency = some 1
    rw [hnew, Option.map_some, (Stay.frequency_eq_one_iff _).2 rfl]
  · have hne' : k ≠ k' := Ne.symm hne
    rw [hturn, if_neg hne']
    split
    · rfl
    · next hstays =>
      refine h.unbound k' ?_
      rw [List.map_append, List.mem_append, not_or]
      exact ⟨hk', hstays⟩
  · -- All that is bound entered in an earlier turn.
    have hmem : y ∈ often ++ once := List.mem_append_right _ hy
    obtain ⟨s, hs, -⟩ := Option.map_eq_some_iff.1 (h.stay_eq y (hsub.subset hmem))
    show since y.key (turns ++ [turn]) < since k (turns ++ [turn])
    rw [since, since, hnew, hkept y hmem, hs]
    exact since_lt hs

/-- An element is used. -/
theorem use (h : Recalls turns m.ranked) (hm : m.Valid) (hx : m.find? k = some x)
    (hturn : ∀ k', stay k' (turns ++ [turn]) =
      if k = k' then (stay k' turns).map fun s => { s with hits := s.hits + 1 }
      else stay k' turns) :
    Recalls (turns ++ [turn]) (m.use k).ranked := by
  obtain ⟨above, overtaken, below, hranked, huse, -, habove⟩ :=
    exists_use hm h.separated (fun _ => h.one_le_frequency) hx
  obtain ⟨hmem, rfl⟩ := mem_of_find?_eq_some hx
  have hd := hm.distinct
  have hstay := h.stay_eq x hmem
  have htwo := Counted.two_le_frequency_used (h.one_le_frequency hmem)
  rw [hranked] at h hd
  have hothers : (above ++ (overtaken ++ below)).Sublist (above ++ overtaken ++ x :: below) := by
    rw [← List.append_assoc]
    exact (List.sublist_cons_self ..).append_left _
  have hne : ∀ y ∈ above ++ (overtaken ++ below), x.key ≠ y.key := by
    intro y hy
    rw [← List.append_assoc] at hy
    exact (hd.ne_of_append_cons y hy).symm
  rw [huse]
  refine h.place hothers (fun y hy => ?_) ?_ (fun k' hk' hout => ?_) habove fun y hy hone => ?_
  · rw [hturn, if_neg (hne y hy)]
  · obtain ⟨s, hs, hfrequency⟩ := Option.map_eq_some_iff.1 hstay
    show (stay x.key (turns ++ [turn])).map Stay.frequency = some x.used.frequency
    rw [hturn, if_pos rfl, hs, Option.map_some, Option.map_some, Option.some_inj]
    show min (s.hits + 1 + 1) Lfu.maxFrequency = min (x.frequency + 1) Lfu.maxFrequency
    rw [← hfrequency, Stay.frequency]
    omega
  · have hne' : x.key ≠ k' := Ne.symm hk'
    rw [hturn, if_neg hne']
    refine h.unbound k' ?_
    simp only [List.map_append, List.map_cons, List.mem_append, List.mem_cons] at hout ⊢
    tauto
  · omega

end Recalls

/-! ## Requests -/

omit [DecidableEq κ] in
/-- What gives way are the last elements, told from the last one on. -/
theorem exists_gone_evict (m : Ranking κ ν) :
    ∃ gone, m.ranked = m.evict.2.ranked ++ gone ∧
      m.evict.1.toList = (gone.map Counted.entry).reverse := by
  obtain ⟨n, ranked⟩ := m
  rcases List.eq_nil_or_concat' ranked with rfl | ⟨ranked, x, rfl⟩
  · exact ⟨[], rfl, rfl⟩
  · rw [evict_concat]
    exact ⟨[x], rfl, rfl⟩

omit [DecidableEq κ] in
theorem exists_gone_makeRoom (m : Ranking κ ν) :
    ∃ gone, m.ranked = m.makeRoom.2.ranked ++ gone ∧
      m.makeRoom.1.toList = (gone.map Counted.entry).reverse := by
  rw [makeRoom]
  split
  · exact m.exists_gone_evict
  · exact ⟨[], (List.append_nil _).symm, rfl⟩

theorem drain_eq (m : Ranking κ ν) : Store.drain m = (m.entries, m.clear) := by
  have hall : evictMany Store.evict (Store.size m) m = _ :=
    evictMany_eq m.capacity m.ranked.length m.ranked
  rw [Store.drain_eq, hall, List.take_of_length_le (length_entries _).le]
  rfl

theorem perform_resize (m : Ranking κ ν) (n : Nat) :
    Store.perform m (.resize n) =
      if n = 0 then ({ reply := .refused .zeroCapacity }, m)
      else (.evicting .done (m.shrink n).1, (m.shrink n).2) :=
  Store.perform_resize_of (m.store_resize_eq n)

/-- Whatever a request evicts are the last elements, told from the last one on. -/
theorem exists_gone (m : Ranking κ ν) (request : Request κ ν) :
    ∃ kept gone, m.ranked = kept ++ gone ∧
      (Store.perform m request).1.evicted = (gone.map Counted.entry).reverse := by
  cases request with
  | put key value =>
    rw [Store.evicted_put]
    show ∃ kept gone, _ ∧ (m.put key value).1.toList = _
    rw [put]
    split
    · exact ⟨m.ranked, [], (List.append_nil _).symm, rfl⟩
    · exact ⟨_, m.exists_gone_makeRoom⟩
  | get key | peek key | contains key | remove key | clear =>
    exact ⟨m.ranked, [], (List.append_nil _).symm, rfl⟩
  | evict =>
    rw [Store.evicted_evict]
    exact ⟨_, m.exists_gone_evict⟩
  | drain =>
    refine ⟨[], m.ranked, rfl, ?_⟩
    rw [Store.evicted_drain, drain_eq]
    rfl
  | resize n =>
    rw [perform_resize]
    split
    · exact ⟨m.ranked, [], (List.append_nil _).symm, rfl⟩
    · rw [Outcome.evicted_evicting]
      exact ⟨m.ranked.take n, m.ranked.drop n, (List.take_append_drop n m.ranked).symm, rfl⟩

/-- The stays after a put. -/
theorem stay_put {v : ν} {reply : Reply κ ν} {reported : List (Entry κ ν)}
    {notices : List (Notice κ ν)} (k' : κ) :
    stay k' (turns ++ [⟨.put k v, reply, reported, notices⟩]) =
      if k' ∈ keys reported then none
      else if k = k' then some ((stay k' turns).getD { since := turns.length })
      else stay k' turns := by
  rw [stay_concat, Turn.stay, Turn.ends, Turn.continues]
  simp only [decide_eq_true_eq]

theorem Recalls.put (h : Recalls turns m.ranked) (hm : m.Valid) {v : ν} {reply : Reply κ ν}
    {reported : List (Entry κ ν)} {notices : List (Notice κ ν)}
    (hreported : reported = (m.put k v).1.toList) :
    Recalls (turns ++ [⟨.put k v, reply, reported, notices⟩]) (m.put k v).2.ranked := by
  rw [Ranking.put] at hreported ⊢
  split at hreported
  · next hbound =>
    rw [if_pos hbound]
    obtain ⟨x, hx⟩ := Option.isSome_iff_exists.1 hbound
    obtain ⟨hmem, rfl⟩ := mem_of_find?_eq_some hx
    obtain ⟨s, hs, -⟩ := Option.map_eq_some_iff.1 (h.stay_eq x hmem)
    refine (h.same fun k' => ?_).map (fun y => ?_) fun y => ?_
    · rw [stay_put, if_neg (by rw [hreported]; exact List.not_mem_nil)]
      split
      · next heq => rw [← heq, hs]; rfl
      · rfl
    · split <;> rfl
    · split <;> rfl
  · next hfree =>
    obtain ⟨gone, hranked, htold⟩ := m.exists_gone_makeRoom
    have hd := hm.distinct
    have hk : k ∉ m.ranked.map Counted.key := by
      intro hmem
      obtain ⟨x, hx, hkey⟩ := List.mem_map.1 hmem
      have hnone : m.find? k = none := Option.not_isSome_iff_eq_none.1 hfree
      exact find?_eq_none_iff.1 hnone x hx hkey
    rw [hranked] at h hd hk
    rw [if_neg hfree]
    refine h.enter hd hk v fun k' => ?_
    rw [stay_put, hreported, show m.makeRoom.1.toList = _ from htold]
    simp only [mem_keys_told]

theorem Recalls.get (h : Recalls turns m.ranked) (hm : m.Valid) {reported : List (Entry κ ν)}
    {notices : List (Notice κ ν)} (hreported : reported = []) :
    Recalls (turns ++ [⟨.get k, .value (m.peek k), reported, notices⟩]) (m.use k).ranked := by
  subst hreported
  have hturn : ∀ k', stay k' (turns ++ [⟨.get k, .value (m.peek k), [], notices⟩]) =
      if k = k' ∧ (m.peek k).isSome = true then
        (stay k' turns).map fun s => { s with hits := s.hits + 1 }
      else stay k' turns := fun k' => stay_concat k' ..
  rcases hx : m.find? k with _ | x
  · rw [Ranking.use, hx]
    refine h.same fun k' => ?_
    rw [hturn, peek, hx, if_neg]
    exact fun hboth => Bool.false_ne_true hboth.2
  · refine h.use hm hx fun k' => ?_
    rw [hturn, peek, hx]
    simp

theorem Recalls.remove (h : Recalls turns m.ranked) {reply : Reply κ ν}
    {reported : List (Entry κ ν)} {notices : List (Notice κ ν)} :
    Recalls (turns ++ [⟨.remove k, reply, reported, notices⟩]) (erase Counted.key k m.ranked) := by
  have hturn : ∀ k', stay k' (turns ++ [⟨.remove k, reply, reported, notices⟩]) =
      if decide (k = k') then none else stay k' turns := fun k' => stay_concat k' ..
  simp only [decide_eq_true_eq] at hturn
  refine h.keep erase_sublist (fun x hx => ?_) fun k' hk' => ?_
  · rw [hturn, if_neg (Ne.symm (mem_erase_iff.1 hx).2)]
  · rw [hturn]
    split
    · rfl
    · next hne =>
      refine h.unbound k' fun hmem => hk' ?_
      obtain ⟨x, hx, rfl⟩ := List.mem_map.1 hmem
      exact List.mem_map_of_mem (mem_erase_iff.2 ⟨hx, Ne.symm hne⟩)

/-- One request. -/
theorem Valid.recalls_perform (hm : m.Valid) (h : Recalls turns m.ranked)
    (hreply : turn.reply = (Store.perform m turn.request).1.reply)
    (hreported : turn.reported = (Store.perform m turn.request).1.evicted) :
    Recalls (turns ++ [turn]) (Store.perform m turn.request).2.ranked := by
  have hd := hm.distinct
  obtain ⟨request, reply, reported, notices⟩ := turn
  have hnone := (List.append_nil m.ranked).symm
  cases request with
  | put key value => exact h.put hm (hreported.trans (Store.evicted_put m key value))
  | get key =>
    have hvalue : reply = .value (m.peek key) := hreply
    subst hvalue
    exact h.get hm hreported
  | peek key | contains key =>
    rw [hnone] at h hd
    exact h.shed hd hreported fun _ _ => rfl
  | remove key => exact h.remove
  | evict =>
    obtain ⟨gone, hranked, htold⟩ := m.exists_gone_evict
    rw [hranked] at h hd
    exact h.shed hd ((hreported.trans (Store.evicted_evict m)).trans htold) fun _ _ => rfl
  | clear => exact ⟨nofun, fun k _ => stay_concat k .., .nil⟩
  | drain =>
    have hall : reported = m.entries :=
      (hreported.trans (Store.evicted_drain m)).trans (congrArg Prod.fst m.drain_eq)
    rw [← List.nil_append m.ranked] at h hd
    exact h.shed hd hall fun _ _ => rfl
  | resize n =>
    rw [perform_resize] at hreported ⊢
    split at hreported
    · next hzero =>
      rw [hnone] at h hd
      rw [if_pos hzero]
      exact h.shed hd hreported fun _ _ => rfl
    · next hpos =>
      rw [← List.take_append_drop n m.ranked] at h hd
      rw [Outcome.evicted_evicting] at hreported
      rw [if_neg hpos]
      exact h.shed hd hreported fun _ _ => rfl

/-- Any actions. -/
theorem Valid.recalls_actAll {o : Observed (Ranking κ ν)} (hm : o.store.Valid)
    (h : Recalls turns o.store.ranked) (actions : List (Observed.Action κ ν)) :
    Recalls (turns ++ (o.actAll actions).1) (o.actAll actions).2.store.ranked := by
  refine (actAll_keeps (P := fun turns (m : Ranking κ ν) => m.Valid ∧ Recalls turns m.ranked)
    ?_ (fun h _ => h) ⟨hm, h⟩ actions).2
  rintro turns m ⟨hm, h⟩ turn hreply hreported
  exact ⟨lawful.perform hm turn.request, hm.recalls_perform h hreply hreported⟩

namespace Recalls

theorem frequency?_eq (h : Recalls turns m.ranked) (k : κ) :
    m.frequency? k = (stay k turns).map Stay.frequency := by
  rw [frequency?]
  rcases hx : m.find? k with _ | x
  · rw [h.unbound k]
    · rfl
    · intro hmem
      obtain ⟨x, hx', hkey⟩ := List.mem_map.1 hmem
      exact find?_eq_none_iff.1 hx x hx' hkey
  · obtain ⟨hmem, rfl⟩ := mem_of_find?_eq_some hx
    exact (h.stay_eq x hmem).symm

/-- The entries used once are those that were never found. -/
theorem frequency_eq_one_iff (h : Recalls turns l) (hx : x ∈ l) :
    x.frequency = 1 ↔ ∃ time, stay x.key turns = some ⟨time, 0⟩ := by
  obtain ⟨⟨time, hits⟩, hs, hfrequency⟩ := Option.map_eq_some_iff.1 (h.stay_eq x hx)
  rw [← hfrequency, Stay.frequency_eq_one_iff, hs]
  simp

theorem exists_of_stay (h : Recalls turns l) {s : Stay} (hs : stay k turns = some s) :
    ∃ x ∈ l, x.key = k := by
  by_contra hnone
  refine Option.some_ne_none s (hs.symm.trans (h.unbound k fun hmem => hnone ?_))
  exact List.mem_map.1 hmem

/-- Whenever some key that is bound was never found, what gives way is the one of those that entered
first. -/
theorem earliest (h : Recalls turns m.ranked) (request : Request κ ν)
    {before rest : List (Entry κ ν)} {e : Entry κ ν} {time : Nat}
    (hevicted : (Store.perform m request).1.evicted = before ++ e :: rest)
    (hk : k ∉ keys before) (hstay : stay k turns = some ⟨time, 0⟩) :
    ∃ first, stay e.key turns = some ⟨first, 0⟩ ∧ (k = e.key ∨ first < time) := by
  obtain ⟨kept, gone, hranked, htold⟩ := m.exists_gone request
  -- The elements ahead of the entry go later or not at all, those behind it have gone.
  obtain ⟨ahead, x, behind, hsplit, rfl, hbehind⟩ :
      ∃ ahead x behind, m.ranked = ahead ++ x :: behind ∧ x.entry = e ∧
        behind.map Counted.entry = before.reverse := by
    have hgone : gone.map Counted.entry = rest.reverse ++ e :: before.reverse := by
      rw [← List.reverse_reverse (gone.map _), ← htold, hevicted]
      simp
    obtain ⟨later, there, rfl, -, hthere⟩ := List.map_eq_append_iff.1 hgone
    obtain ⟨x, behind, rfl, hx, hbehind⟩ := List.map_eq_cons_iff.1 hthere
    exact ⟨kept ++ later, x, behind, by rw [hranked, List.append_assoc], hx, hbehind⟩
  rw [hsplit] at h
  obtain ⟨y, hy, rfl⟩ := h.exists_of_stay hstay
  have hone := (h.frequency_eq_one_iff hy).2 ⟨time, hstay⟩
  rcases List.mem_append.1 hy with hahead | hy
  · have hyx := (List.pairwise_append.1 h.order).2.2 y hahead x List.mem_cons_self
    obtain ⟨hxone, hlt⟩ := hyx hone
    obtain ⟨first, hfirst⟩ := (h.frequency_eq_one_iff (by simp)).1 hxone
    rw [since, since, hfirst, hstay] at hlt
    exact ⟨first, hfirst, .inr hlt⟩
  · rcases List.mem_cons.1 hy with rfl | hy
    · exact ⟨time, hstay, .inl rfl⟩
    · refine absurd ?_ hk
      rw [← List.reverse_reverse before, ← hbehind, mem_keys_told]
      exact List.mem_map_of_mem hy

end Recalls

end Ranking

end BoundedCache
