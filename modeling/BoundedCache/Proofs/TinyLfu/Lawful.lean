import BoundedCache.Proofs.Segmented.Lawful
import BoundedCache.Store.TinyLfu

/-!
# Window and main part are lawful together

Whatever the popularity of the keys, and hence whatever their hashes are, an entry that leaves the
window goes to the main part, or an entry is told to have been dropped.

## Main definitions

- `TinyLfu.Valid` — the parts bind different keys, and divide the capacity between them

## Main results

- `TinyLfu.Parts.contest`, `TinyLfu.Parts.spill` — an entry leaves the window
- `TinyLfu.lawful` — the laws of a bounded map
-/

namespace BoundedCache

namespace TinyLfu

open Keyed

variable {κ ν : Type} [DecidableEq κ] [Hashable κ] {c d : TinyLfu κ ν} {k : κ} {v : ν}
  {m n : Nat} {l : List (Entry κ ν)} {e : Entry κ ν}

/-- What holds of a store whose main part is in order. -/
abbrev MainValid : Segmented κ ν → Prop := Segmented.Valid Segmented.defaultRatio

theorem mainLawful : Store.Lawful (MainValid : Segmented κ ν → Prop) :=
  Segmented.lawful _

/-- The parts bind different keys, and the main one has room for `m` entries. -/
structure Parts (m : Nat) (c : TinyLfu κ ν) : Prop where
  joined : Store.Joined Lru.Valid MainValid c.window c.main
  main_capacity : c.main.capacity = m

/-- The parts bind different keys, and divide the capacity between them. -/
structure Valid (c : TinyLfu κ ν) : Prop where
  joined : Store.Joined Lru.Valid MainValid c.window c.main
  capacity_eq : c.window.capacity + c.main.capacity = c.capacity

namespace Parts

/-- An entry finds a place in the main part. -/
theorem putMain (h : c.Parts m) (hwindow : e.key ∉ keys c.window.entries)
    (hmain : e.key ∉ keys c.main.entries) (hroom : c.main.size < m) :
    (c.putMain e).Parts m ∧ (c.putMain e).entries.Perm (e :: c.entries) := by
  have hopen : c.main.size < c.main.capacity := by rwa [h.main_capacity]
  obtain ⟨-, hput, hjoined, hp⟩ :=
    h.joined.insert_right mainLawful hwindow hmain hopen e.value
  exact ⟨⟨hjoined, hput.capacity_eq.trans h.main_capacity⟩, hp⟩

/-- A candidate for the main part is dropped, or takes the place of an entry that is, or else there
was room for it. -/
theorem contest (h : c.Parts m) (hwindow : e.key ∉ keys c.window.entries)
    (hmain : e.key ∉ keys c.main.entries) :
    let p := c.contest e
    p.2.Parts m ∧ p.2.window = c.window ∧ p.2.capacity = c.capacity ∧
      (e :: c.entries).Perm (p.1.toList ++ p.2.entries) ∧ (p.1.isSome ↔ c.main.size = m) := by
  have hle : c.main.size ≤ c.main.capacity := h.joined.right.size_le
  rw [h.main_capacity] at hle
  rw [TinyLfu.contest_def]
  rcases hvictim : c.main.victim? with _ | victim
  · have hopen := h.joined.right.victim?_eq_none_iff.1 hvictim
    rw [h.main_capacity] at hopen
    obtain ⟨hd, hp⟩ := h.putMain hwindow hmain (by omega)
    exact ⟨hd, rfl, rfl, hp.symm, fun hsome => absurd hsome Bool.false_ne_true,
      fun hfull => absurd hfull hopen⟩
  · have hfull : c.main.size = m := by
      by_contra hne
      rw [← h.main_capacity] at hne
      rw [h.joined.right.victim?_eq_none_iff.2 hne] at hvictim
      cases hvictim
    dsimp only
    split
    · -- The candidate wins, and a full main part has an entry to drop.
      obtain ⟨-, hnil, -⟩ | ⟨dropped, rest, hevict, hp, hholds⟩ := h.joined.right.evict_cases
      · have hpos := h.joined.right.capacity_pos
        rw [h.main_capacity, ← hfull, h.joined.right.size_eq, hnil] at hpos
        exact absurd hpos (Nat.lt_irrefl 0)
      · rw [hevict]
        have hcount := hp.length_eq
        rw [List.length_cons, ← h.joined.right.size_eq, ← Segmented.Valid.size_of_holds hholds]
          at hcount
        have hd : Parts m { c with main := c.main.evict.2 } :=
          ⟨h.joined.exchange_right hholds fun k hk => .inl (mem_keys_of_rest hp hk),
            hholds.capacity_eq.trans h.main_capacity⟩
        -- The candidate is added only after the victim has gone.
        have hmain' : e.key ∉ keys c.main.evict.2.entries := by
          intro hmem
          exact hmain (mem_keys_of_rest hp ((mem_keys_perm hholds.perm).1 hmem))
        have hroom : c.main.evict.2.size < m := by omega
        obtain ⟨he, hp'⟩ := hd.putMain hwindow hmain' hroom
        refine ⟨he, rfl, rfl, ?_, fun _ => hfull, fun _ => rfl⟩
        refine .trans ?_ (hp'.symm.cons dropped)
        refine .trans (.cons e ?_) (.swap ..)
        have hmove := (hp.trans (hholds.perm.symm.cons dropped)).append_left c.window.entries
        exact hmove.trans List.perm_middle
    · -- The candidate loses, and is what is told.
      exact ⟨h, rfl, rfl, .refl _, fun _ => hfull, fun _ => rfl⟩

/-- The oldest entry of the window leaves it, for the main part if there is room. -/
theorem spill (h : c.Parts m) :
    let p := c.spill m
    p.2.Parts m ∧ c.entries.Perm (p.1.toList ++ p.2.entries) ∧
      p.2.window.size = c.window.size - 1 := by
  have hsize := h.joined.left.size_eq
  rw [TinyLfu.spill_def]
  obtain ⟨hevict, hnil, hholds⟩ | ⟨e, rest, hevict, hp, hholds⟩ := h.joined.left.evict_cases
  · rw [hevict]
    refine ⟨⟨h.joined.exchange_left hholds fun k hk => absurd hk List.not_mem_nil,
      h.main_capacity⟩, ?_, ?_⟩
    · show (c.window.entries ++ c.main.entries).Perm (c.window.evict.2.entries ++ c.main.entries)
      rw [hnil]
      exact hholds.perm.symm.append_right _
    · show c.window.evict.2.size = c.window.size - 1
      rw [Lru.size_of_holds hholds, hsize, hnil]
      rfl
  · rw [hevict]
    have hcount := hp.length_eq
    rw [List.length_cons, ← hsize, ← Lru.size_of_holds hholds] at hcount
    obtain ⟨hjoined, hwindow, hmain⟩ := h.joined.leave_left h.joined.left.distinct hp hholds
    have hd : Parts m { c with window := c.window.evict.2 } := ⟨hjoined, h.main_capacity⟩
    have hperm : c.entries.Perm (e :: (c.window.evict.2.entries ++ c.main.entries)) :=
      (hp.trans (hholds.perm.symm.cons e)).append_right _
    dsimp only
    split
    · next hroom =>
      obtain ⟨he, hp'⟩ := hd.putMain hwindow hmain hroom
      refine ⟨he, hperm.trans hp'.symm, ?_⟩
      show c.window.evict.2.size = c.window.size - 1
      omega
    · refine ⟨hd, hperm, ?_⟩
      show c.window.evict.2.size = c.window.size - 1
      omega

theorem spillMany (h : c.Parts m) (n : Nat) :
    let p := spillMany m n c
    p.2.Parts m ∧ c.entries.Perm (p.1 ++ p.2.entries) ∧
      p.2.window.size = c.window.size - n := by
  induction n generalizing c with
  | zero => exact ⟨h, .refl _, rfl⟩
  | succ n ih =>
    obtain ⟨hd, hp, hsize⟩ := h.spill
    obtain ⟨he, hp', hsize'⟩ := ih hd
    rw [TinyLfu.spillMany_succ]
    refine ⟨he, ?_, ?_⟩
    · refine hp.trans ((hp'.append_left _).trans (.of_eq ?_))
      rw [← List.append_assoc]
    · refine hsize'.trans ?_
      rw [hsize, Nat.sub_sub, Nat.add_comm]

end Parts

theorem evict_eq (c : TinyLfu κ ν) :
    c.evict =
      let p := Store.evictEither c.main c.window
      (p.1, { c with main := p.2.1, window := p.2.2 }) := by
  rcases hevict : c.main.evict with ⟨_ | e, p⟩
  · have hstore : Store.evict c.main = (none, p) := hevict
    rw [TinyLfu.evict, Store.evictEither, hevict, hstore]
    rfl
  · have hstore : Store.evict c.main = (some e, p) := hevict
    rw [TinyLfu.evict, Store.evictEither, hevict, hstore]

theorem remove_eq (c : TinyLfu κ ν) (k : κ) :
    c.remove k =
      let p := Store.removeEither c.window c.main k
      (p.1, { c with window := p.2.1, main := p.2.2 }) := by
  rcases hremove : c.window.remove k with ⟨_ | w, p⟩
  · have hstore : Store.remove c.window k = (none, p) := hremove
    rw [TinyLfu.remove, Store.removeEither, hremove, hstore]
    rfl
  · have hstore : Store.remove c.window k = (some w, p) := hremove
    rw [TinyLfu.remove, Store.removeEither, hremove, hstore]

namespace Valid

/-! ## Reading -/

theorem size_eq (h : c.Valid) : c.size = c.entries.length := h.joined.size_eq Lru.lawful mainLawful

theorem distinct (h : c.Valid) : Distinct Entry.key c.entries :=
  h.joined.distinct Lru.lawful mainLawful

theorem size_le (h : c.Valid) : c.size ≤ c.capacity := by
  rw [← h.capacity_eq]
  exact Nat.add_le_add h.joined.left.size_le h.joined.right.size_le

theorem capacity_pos (h : c.Valid) : 0 < c.capacity := by
  rw [← h.capacity_eq]
  exact Nat.lt_add_right _ h.joined.left.capacity_pos

theorem contains_eq (h : c.Valid) (k : κ) : c.contains k = (lookup? k c.entries).isSome :=
  h.joined.contains_eq Lru.lawful mainLawful k

theorem peek_eq (h : c.Valid) (k : κ) : c.peek k = lookup? k c.entries :=
  h.joined.peek_eq Lru.lawful mainLawful k

/-- The parts may be exchanged for others that divide the same capacity between them. -/
theorem holds (h : c.Valid) (hjoined : Store.Joined Lru.Valid MainValid d.window d.main)
    (hwindow : d.window.capacity = c.window.capacity) (hmain : d.main.capacity = c.main.capacity)
    (hcapacity : d.capacity = c.capacity) (hp : d.entries.Perm l) :
    Store.Holds Valid (Store.capacity c) l d where
  inv := ⟨hjoined, by rw [hwindow, hmain, h.capacity_eq, hcapacity]⟩
  capacity_eq := hcapacity
  perm := hp

/-! ## Operations -/

/-- Recording a use changes the popularity only. -/
theorem record (h : c.Valid) (k : κ) : (c.record k).Valid := ⟨h.joined, h.capacity_eq⟩

/-- A new key comes to a window that has room for it, or has it since an entry left. -/
theorem insertWindow (h : c.Valid) (hk : k ∉ keys c.entries) {w : Lru κ ν}
    (hw : Store.Holds Lru.Valid c.window.capacity l w) (hl : keys l ⊆ keys c.window.entries)
    (hroom : l.length < c.window.capacity) (v : ν) :
    Parts c.main.capacity { c with window := (w.put k v).2 } ∧
      (w.put k v).2.capacity = c.window.capacity ∧ (w.put k v).2.entries.Perm (⟨k, v⟩ :: l) := by
  obtain ⟨hwindow, hmain⟩ := not_mem_keys_append.1 hk
  have hjoined : Store.Joined Lru.Valid MainValid w c.main :=
    h.joined.exchange_left hw fun k' hk' => .inl (hl hk')
  have hout : k ∉ keys w.entries := by
    intro hmem
    exact hwindow (hl ((mem_keys_perm hw.perm).1 hmem))
  have hopen : w.size < w.capacity := by
    rw [Lru.size_of_holds hw]
    exact hroom.trans_eq hw.capacity_eq.symm
  obtain ⟨-, hput, hjoined', -⟩ := hjoined.insert_left Lru.lawful hout hmain hopen v
  exact ⟨⟨hjoined', rfl⟩, hput.capacity_eq.trans hw.capacity_eq, hput.perm.trans (hw.perm.cons _)⟩

/-- The oldest entry of a full window makes way for a new key. -/
theorem contestNew (h : c.Valid) (hk : k ∉ keys c.entries) {w : Lru κ ν}
    (hw : Store.Holds Lru.Valid c.window.capacity l w) (hp : c.window.entries.Perm (e :: l))
    (hfull : c.window.size = c.window.capacity) (v : ν) :
    Store.Puts Valid c k v (contest { c with window := (w.put k v).2 } e) := by
  have hlength := hp.length_eq
  rw [List.length_cons, ← h.joined.left.size_eq, hfull] at hlength
  have hl : keys l ⊆ keys c.window.entries := by
    intro k' hk'
    exact mem_keys_of_rest hp hk'
  have he : e.key ∈ keys c.window.entries := head_mem_keys hp
  obtain ⟨hd, hcapacity, hnew⟩ := h.insertWindow hk hw hl (by omega) v
  have hcandidate : e.key ∉ keys (w.put k v).2.entries := by
    rw [mem_keys_of_perm_cons hnew, not_or]
    refine ⟨?_, not_mem_keys_rest h.joined.left.distinct hp⟩
    intro heq
    rw [heq] at he
    exact hk (mem_keys_append.2 (.inl he))
  obtain ⟨hparts, hwindow', hcapacity', hperm', hsome'⟩ :=
    hd.contest hcandidate (h.joined.disjoint he)
  generalize contest _ e = p at hparts hwindow' hcapacity' hperm' hsome' ⊢
  -- Nothing is lost: the new entry and the old ones are what is told and what is left.
  have htotal : (⟨k, v⟩ :: c.entries).Perm (p.1.toList ++ p.2.entries) := by
    refine .trans ?_ (.trans (.cons e (hnew.symm.append_right _)) hperm')
    exact (.trans (.cons _ (hp.append_right _)) (.swap ..))
  have hmem : k ∈ keys p.2.entries := by
    refine mem_keys_append.2 (.inl ?_)
    rw [hwindow', mem_keys_of_perm_cons hnew]
    exact .inl rfl
  obtain ⟨rest, hrest, hafter⟩ := exists_rest_of_perm h.distinct hk htotal hmem
  have hfree : k ∉ keys rest := mt (mem_keys_of_kept hrest) hk
  refine ⟨⟨rest, hrest, h.holds hparts.joined ?_ hparts.main_capacity hcapacity' ?_⟩, ?_⟩
  · rw [hwindow']
    exact hcapacity
  · rw [erase_eq_self_of_not_mem hfree]
    exact hafter
  · -- The window is full, so the store is full if the main part is.
    rw [hsome', lookup?_eq_none_iff]
    show c.main.size = c.main.capacity ↔
      k ∉ keys c.entries ∧ c.window.size + c.main.size = c.capacity
    have htwo := h.capacity_eq
    constructor
    · intro hfull'
      exact ⟨hk, by omega⟩
    · rintro ⟨-, hfull'⟩
      omega

/-- A new key comes to the window, whose oldest entry has to move on if there was no room. -/
theorem insertNew (h : c.Valid) (hk : k ∉ keys c.entries) (v : ν) :
    Store.Puts Valid c k v (c.insertNew k v) := by
  obtain ⟨⟨rest, hp, hw, hlt⟩, hsome⟩ := h.joined.left.makeRoom
  rw [TinyLfu.insertNew_def]
  generalize c.window.makeRoom = p at hp hw hsome ⊢
  obtain ⟨candidate, w⟩ := p
  cases candidate with
  | none =>
    have hl : keys rest ⊆ keys c.window.entries := keys_subset_of_perm hp.symm
    obtain ⟨hd, hcapacity, hnew⟩ := h.insertWindow hk hw hl hlt v
    have hopen : c.window.size ≠ c.window.capacity :=
      fun hfull => absurd (hsome.2 hfull) Bool.false_ne_true
    have hroom : c.size < c.capacity := by
      have hwindow := h.joined.left.size_le
      have hmain : c.main.size ≤ c.main.capacity := h.joined.right.size_le
      rw [size, ← h.capacity_eq]
      omega
    refine Store.puts_none (.inr hroom) (h.holds hd.joined hcapacity rfl rfl ?_)
    show (entries _).Perm (_ :: erase Entry.key k c.entries)
    rw [erase_eq_self_of_not_mem hk]
    exact (hnew.trans (hp.symm.cons _)).append_right _
  | some e => exact h.contestNew hk hw hp (hsome.1 rfl) v

/-- A bound key gets its value in the part where it is. -/
theorem put (h : c.Valid) (k : κ) (v : ν) : Store.Puts Valid c k v (c.put k v) := by
  have hrecord := h.record k
  have hputs : Store.Puts Valid (c.record k) k v (c.put k v) := by
    rw [TinyLfu.put_def]
    generalize c.record k = d at hrecord ⊢
    have hjoined := hrecord.joined
    dsimp only
    split
    · next hcontains =>
      have hk := (hjoined.left.contains_iff k).1 hcontains
      have hbound : lookup? k d.entries ≠ none :=
        lookup?_ne_none_iff.2 (mem_keys_append.2 (.inl hk))
      obtain ⟨-, hput, hjoined', hp⟩ :=
        hjoined.put_left Lru.lawful (hjoined.disjoint hk) (.inl hk) v
      exact Store.puts_none (.inl hbound) (hrecord.holds hjoined' hput.capacity_eq rfl rfl hp)
    next hwindow =>
    have hwindow := mt (hjoined.left.contains_iff k).2 hwindow
    split
    · next hcontains =>
      have hk := (mainLawful.contains_iff hjoined.right k).1 hcontains
      have hbound : lookup? k d.entries ≠ none :=
        lookup?_ne_none_iff.2 (mem_keys_append.2 (.inr hk))
      obtain ⟨-, hput, hjoined', hp⟩ := hjoined.put_right mainLawful hwindow (.inl hk) v
      exact Store.puts_none (.inl hbound) (hrecord.holds hjoined' rfl hput.capacity_eq rfl hp)
    · next hmain =>
      refine hrecord.insertNew ?_ v
      exact not_mem_keys_append.2 ⟨hwindow, mt (mainLawful.contains_iff hjoined.right k).2 hmain⟩
  exact ⟨hputs.exists_rest, hputs.isSome_iff⟩

theorem get (h : c.Valid) (k : κ) : Store.Gets Valid c k (c.get k) := by
  have hrecord := h.record k
  have hgets : Store.Gets Valid (c.record k) k (c.get k) := by
    rw [TinyLfu.get_def]
    generalize c.record k = d at hrecord ⊢
    have hjoined := hrecord.joined
    have hlookup : lookup? k d.entries =
        (lookup? k d.window.entries).or (lookup? k d.main.entries) :=
      lookup?_append k
    dsimp only
    split
    · next hcontains =>
      have hk := (hjoined.left.contains_iff k).1 hcontains
      obtain ⟨w, hw⟩ := exists_lookup?_eq_some hk
      obtain ⟨hvalue, hget⟩ := hjoined.left.get k
      refine ⟨?_, hrecord.holds (hjoined.exchange_left hget fun k' hk' => .inl hk')
        hget.capacity_eq rfl rfl (hget.perm.append_right _)⟩
      show (d.window.get k).1 = lookup? k d.entries
      rw [hlookup, hw, Option.some_or, ← hw]
      exact hvalue
    · next hwindow =>
      have hwindow := mt (hjoined.left.contains_iff k).2 hwindow
      obtain ⟨hvalue, hget⟩ := hjoined.right.get k
      refine ⟨?_, hrecord.holds (hjoined.exchange_right hget fun k' hk' => .inl hk')
        rfl hget.capacity_eq rfl (hget.perm.append_left _)⟩
      show (d.main.get k).1 = lookup? k d.entries
      rw [hlookup, lookup?_eq_none_iff.2 hwindow, Option.none_or]
      exact hvalue
  exact ⟨hgets.value_eq, hgets.holds⟩

/-- A lookup signals whether it finds a value. -/
theorem getAloud_eq (h : c.Valid) (k : κ) : c.getAloud k = announceLookup (c.get k) := by
  have hjoined := (h.record k).joined
  rw [getAloud, TinyLfu.get_def]
  dsimp only
  by_cases hwindow : (c.record k).window.contains k = true
  · rw [if_pos hwindow, if_pos hwindow]
    have hfound := Lru.lawful.isSome_get hjoined.left k
    exact Aloud.announceLookup_of_isSome (hfound.trans hwindow)
  · rw [if_neg hwindow, if_neg hwindow]
    exact Aloud.announceLookup_of_isSome (mainLawful.isSome_get hjoined.right k)

theorem remove (h : c.Valid) (k : κ) : Store.Removes Valid c k (c.remove k) := by
  obtain ⟨hvalue, hjoined, hw, hm⟩ := h.joined.remove Lru.lawful mainLawful k
  have hperm := Store.Joined.perm hw hm
  rw [← erase_append] at hperm
  rw [remove_eq]
  exact ⟨hvalue, h.holds hjoined hw.capacity_eq hm.capacity_eq rfl hperm⟩

theorem evict (h : c.Valid) : Store.Evicts Valid c c.evict := by
  obtain ⟨hnone, hjoined, lm, lw, hp, hm, hw⟩ := h.joined.symm.evict mainLawful Lru.lawful
  rw [evict_eq]
  refine ⟨⟨lw ++ lm, ?_, h.holds hjoined.symm hw.capacity_eq hm.capacity_eq rfl ?_⟩, ?_⟩
  · exact List.perm_append_comm.trans (hp.trans (.append_left _ List.perm_append_comm))
  · exact Store.Joined.perm hw hm
  · refine hnone.trans ?_
    show _ ↔ c.window.entries ++ c.main.entries = []
    rw [List.append_eq_nil_iff, List.append_eq_nil_iff, and_comm]
    rfl

theorem clear (h : c.Valid) : Store.Holds Valid c.capacity [] c.clear := by
  have hw := h.joined.left.clear
  have hm := mainLawful.clear h.joined.right
  refine h.holds ?_ hw.capacity_eq hm.capacity_eq rfl (hw.perm.append hm.perm)
  exact h.joined.narrow hw hm (List.nil_subset _) (List.nil_subset _)

end Valid

/-- What is known of a layout that is accepted. -/
theorem layout_facts {parts : Layout} (h : layout n = .ok parts) :
    0 < parts.window ∧ 0 < parts.main ∧ parts.window + parts.main = n ∧
      0 < (Split.ofRatio parts.main Segmented.defaultRatio).guarded := by
  obtain ⟨_, -, h⟩ := bind_eq_ok_iff.1 h
  obtain ⟨hsplit, hok⟩ := ite_throw_eq_ok_iff.1 h
  have htotal :=
    Split.probation_add_guarded (n - windowSize n windowRatio) Segmented.defaultRatio
  have hpos : 0 < windowSize n windowRatio := Nat.le_max_right ..
  cases hok
  rw [not_or] at hsplit
  dsimp only
  omega

namespace Valid

/-- What becomes of the main part when its new capacity can be divided up. -/
theorem resizeMain {s : Segmented κ ν} (h : MainValid s) (hm : 0 < m)
    (hguarded : 0 < (Split.ofRatio m Segmented.defaultRatio).guarded) :
    let p := evictMany Segmented.evict (s.size - m) s
    MainValid p.2 ∧ ∃ dropped t rest, p.2.resize m = .ok (dropped, t) ∧
      s.entries.Perm (p.1 ++ rest) ∧ Store.Holds MainValid m rest t := by
  intro p
  obtain ⟨rest, hp, ht, hfits⟩ :=
    Store.evictMany_excess_of_evicts Segmented.Valid.size_eq Segmented.Valid.evict h m
  have hvalid : MainValid p.2 := ht.inv
  obtain ⟨t, rest', hresize, hp', hholds⟩ := hvalid.exists_resize hm hguarded
  -- The entries fit already, so the resize drops none.
  have hnone : p.2.size - m = 0 := Nat.sub_eq_zero_of_le hfits
  rw [hnone] at hresize hp'
  refine ⟨hvalid, _, t, rest', hresize, hp.trans (.append_left _ ?_), hholds⟩
  exact ht.perm.symm.trans hp'

/-- What happens to the parts of a store that are to share a new capacity. -/
theorem resizeParts (h : c.Valid) {parts : Layout} (hlayout : layout n = .ok parts) :
    let p := evictMany Segmented.evict (c.main.size - parts.main) c.main
    MainValid p.2 ∧ ∃ dropped main, p.2.resize parts.main = .ok (dropped, main) ∧
      let q := spillMany parts.main (c.window.size - parts.window) { c with main }
      q.2.window.resize parts.window = .ok ([], { q.2.window with capacity := parts.window }) ∧
        ∃ rest, c.entries.Perm (p.1 ++ q.1 ++ rest) ∧
          ∀ popularity, Store.Holds Valid n rest { q.2 with
            capacity := n
            window := { q.2.window with capacity := parts.window }
            popularity } := by
  intro p
  obtain ⟨hwindow, hmain, hsum, hguarded⟩ := layout_facts hlayout
  obtain ⟨hp, dropped, t, restMain, hresize, hpmain, ht⟩ :=
    resizeMain h.joined.right hmain hguarded
  refine ⟨hp, dropped, t, hresize, ?_⟩
  intro q
  have hparts : Parts parts.main { c with main := t } :=
    ⟨h.joined.exchange_right ht fun k hk => .inl (mem_keys_of_kept hpmain hk), ht.capacity_eq⟩
  obtain ⟨hspilled, hpspill, hsize⟩ := hparts.spillMany (c.window.size - parts.window)
  have hfits : q.2.window.size ≤ parts.window := by
    have hsize' : q.2.window.size = c.window.size - (c.window.size - parts.window) := hsize
    omega
  have hresized := hspilled.joined.left.withCapacity hwindow hfits
  refine ⟨Lru.resize_of_fits hwindow hfits, q.2.entries, ?_, fun popularity => ?_⟩
  · have hkept : c.entries.Perm (p.1 ++ (c.window.entries ++ t.entries)) :=
      ((hpmain.trans (.append_left _ ht.perm.symm)).append_left _).trans
        (List.perm_append_comm_assoc ..)
    rw [List.append_assoc]
    exact hkept.trans (.append_left _ hpspill)
  · exact ⟨⟨hspilled.joined.exchange_left hresized fun k hk => .inl hk,
      hspilled.main_capacity ▸ hsum⟩, rfl, .refl _⟩

theorem exists_resize (h : c.Valid) {parts : Layout} (hlayout : layout n = .ok parts)
    {popularity : Popularity} (hpopularity : Popularity.create n c.seed = .ok popularity) :
    ∃ dropped d rest, c.resize n = .ok (dropped, d) ∧ c.entries.Perm (dropped ++ rest) ∧
      Store.Holds Valid n rest d := by
  obtain ⟨_, hp, hc, -⟩ := Store.evictMany_of_evicts size_eq evict h (c.size - n)
  obtain ⟨-, _, _, hmain, hwindow, rest, hparts, hholds⟩ := hc.inv.resizeParts hlayout
  have hall := hp.trans (.append_left _ (hc.perm.symm.trans hparts))
  rw [← List.append_assoc, ← List.append_assoc] at hall
  refine ⟨_, _, rest, ?_, hall, hholds popularity⟩
  rw [resize_def]
  refine bind_eq_ok_iff.2 ⟨_, hlayout, bind_eq_ok_iff.2 ⟨_, hpopularity, ?_⟩⟩
  exact bind_eq_ok_iff.2 ⟨_, hmain, bind_eq_ok_iff.2 ⟨_, hwindow, rfl⟩⟩

theorem resize (h : c.Valid) {dropped : List (Entry κ ν)} (hd : c.resize n = .ok (dropped, d)) :
    ∃ rest, c.entries.Perm (dropped ++ rest) ∧ Store.Holds Valid n rest d := by
  have hdone := hd
  rw [resize_def] at hdone
  obtain ⟨parts, hlayout, hrest⟩ := bind_eq_ok_iff.1 hdone
  obtain ⟨popularity, hpopularity, -⟩ := bind_eq_ok_iff.1 hrest
  obtain ⟨dropped', d', rest, heq, hp, hholds⟩ := h.exists_resize hlayout hpopularity
  obtain ⟨rfl, rfl⟩ := Prod.mk.inj (Except.ok.inj (heq.symm.trans hd))
  exact ⟨rest, hp, hholds⟩

end Valid

theorem create_holds {hash : KeyHash κ} {seed : UInt64} (hc : create n hash seed = .ok c) :
    Store.Holds Valid n [] c := by
  obtain ⟨parts, hlayout, hc⟩ := bind_eq_ok_iff.1 hc
  obtain ⟨-, -, hsum, -⟩ := layout_facts hlayout
  obtain ⟨w, hw, hc⟩ := bind_eq_ok_iff.1 hc
  obtain ⟨hpos, rfl⟩ := Lru.create_eq_ok_iff.1 hw
  obtain ⟨s, hs, hc⟩ := bind_eq_ok_iff.1 hc
  obtain ⟨hmain, hcapacity, hnil⟩ := Segmented.create_holds hs
  obtain ⟨popularity, -, hc⟩ := bind_eq_ok_iff.1 hc
  cases hc
  refine ⟨⟨⟨Lru.empty_valid hpos, hmain, List.disjoint_nil_left _⟩, ?_⟩, rfl, hnil⟩
  show parts.window + s.capacity = n
  rw [show s.capacity = parts.main from hcapacity, hsum]

theorem lawful : Store.Lawful (Valid : TinyLfu κ ν → Prop) where
  distinct h := h.distinct
  size_eq h := h.size_eq
  size_le h := h.size_le
  capacity_pos h := h.capacity_pos
  contains_eq h k := h.contains_eq k
  peek_eq h k := h.peek_eq k
  get h k := h.get k
  put h k v := h.put k v
  remove h k := h.remove k
  evict h := h.evict
  clear h := h.clear
  resize h _ _ _ hd := h.resize hd
  getAloud_eq h k := h.getAloud_eq k
  setSamples h _ := ⟨h, rfl, .refl _⟩

end TinyLfu

end BoundedCache
