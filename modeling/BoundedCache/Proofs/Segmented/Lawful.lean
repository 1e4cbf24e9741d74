import BoundedCache.Proofs.Lru.Lawful
import BoundedCache.Proofs.Store.Joined
import BoundedCache.Store.Segmented

/-!
# Segmented stores are lawful

Probation may take up the whole capacity, so an entry that is demoted to it always finds room there.

## Main definitions

- `Segmented.Fits` — the segments bind different keys, and fit into a number together
- `Segmented.Valid` — they fit into the capacity, and have the sizes that the ratio gives them

## Main results

- `Segmented.Fits.demote`, `Segmented.Fits.promote` — moving an entry loses none
- `Segmented.lawful` — the laws of a bounded map
-/

namespace BoundedCache

namespace Segmented

open Keyed

variable {κ ν : Type} [DecidableEq κ] [Hashable κ] {c d : Segmented κ ν} {k : κ} {v : ν}
  {m n : Nat} {ratio : Float} {l : List (Entry κ ν)}

/-! ## The invariant -/

/-- The segments bind different keys, and fit into `n` together. Probation alone may be that large,
and the protected segment may have up to `m` entries. -/
structure Fits (n m : Nat) (c : Segmented κ ν) : Prop where
  joined : Store.Joined Lru.Valid Lru.Valid c.probation c.guarded
  probation_capacity : c.probation.capacity = n
  guarded_capacity : c.guarded.capacity = m
  size_le : c.size ≤ n

/-- The segments fit into the capacity, and the protected one is as large as the ratio makes it. -/
structure Valid (ratio : Float) (c : Segmented κ ν) : Prop where
  ratio_eq : c.ratio = ratio
  fits : c.Fits c.capacity (Split.ofRatio c.capacity ratio).guarded

namespace Fits

theorem size_eq (h : c.Fits n m) : c.size = c.entries.length :=
  h.joined.size_eq Lru.lawful Lru.lawful

theorem distinct (h : c.Fits n m) : Distinct Entry.key c.entries :=
  h.joined.distinct Lru.lawful Lru.lawful

theorem of_perm (hjoined : Store.Joined Lru.Valid Lru.Valid d.probation d.guarded)
    (hn : d.probation.capacity = n) (hm : d.guarded.capacity = m) (hp : d.entries.Perm l)
    (hlength : l.length ≤ n) : d.Fits n m where
  joined := hjoined
  probation_capacity := hn
  guarded_capacity := hm
  size_le := by
    have hsize : d.size = d.entries.length := hjoined.size_eq Lru.lawful Lru.lawful
    rw [hsize, hp.length_eq]
    exact hlength

end Fits

namespace Valid

theorem holds (h : c.Valid ratio) (hd : d.Fits c.capacity (Split.ofRatio c.capacity ratio).guarded)
    (hcapacity : d.capacity = c.capacity) (hratio : d.ratio = c.ratio) (hp : d.entries.Perm l) :
    Store.Holds (Valid ratio) (Store.capacity c) l d where
  inv := ⟨hratio.trans h.ratio_eq, by rwa [hcapacity]⟩
  capacity_eq := hcapacity
  perm := hp

/-- The segments may be exchanged for others of the same capacities, if the entries fit. -/
theorem exchange (h : c.Valid ratio) {p g : Lru κ ν}
    (hjoined : Store.Joined Lru.Valid Lru.Valid p g) (hp : p.capacity = c.probation.capacity)
    (hg : g.capacity = c.guarded.capacity) (hperm : (p.entries ++ g.entries).Perm l)
    (hlength : l.length ≤ c.capacity) :
    Store.Holds (Valid ratio) (Store.capacity c) l { c with probation := p, guarded := g } := by
  refine h.holds (.of_perm hjoined ?_ ?_ hperm hlength) rfl rfl hperm
  · exact hp.trans h.fits.probation_capacity
  · exact hg.trans h.fits.guarded_capacity

theorem capacity_pos (h : c.Valid ratio) : 0 < c.capacity := by
  rw [← h.fits.probation_capacity]
  exact h.fits.joined.left.capacity_pos

end Valid

/-! ## Moving entries -/

@[simp]
theorem demote_capacity (c : Segmented κ ν) : c.demote.capacity = c.capacity := by
  rw [demote]
  split <;> rfl

@[simp]
theorem demote_ratio (c : Segmented κ ν) : c.demote.ratio = c.ratio := by
  rw [demote]
  split <;> rfl

@[simp]
theorem promote_capacity (c : Segmented κ ν) (k : κ) (v : ν) :
    (c.promote k v).capacity = c.capacity := by
  rw [promote]
  split
  · exact demote_capacity c
  · rfl

@[simp]
theorem promote_ratio (c : Segmented κ ν) (k : κ) (v : ν) : (c.promote k v).ratio = c.ratio := by
  rw [promote]
  split
  · exact demote_ratio c
  · rfl

namespace Fits

/-- An entry that is demoted finds room in probation. -/
theorem demote (h : c.Fits n m) : c.demote.Fits n m ∧ c.demote.entries.Perm c.entries ∧
    c.demote.guarded.size = c.guarded.size - 1 := by
  have hsize : c.guarded.size = c.guarded.entries.length := h.joined.right.size_eq
  have hle : c.probation.size + c.guarded.size ≤ n := h.size_le
  have hlength : c.entries.length ≤ n := h.size_eq ▸ h.size_le
  rw [Segmented.demote]
  obtain ⟨hevict, hnil, hg⟩ | ⟨e, rest, hevict, hp, hg⟩ := h.joined.right.evict_cases
  · rw [hevict]
    have hperm : (c.probation.entries ++ c.guarded.evict.2.entries).Perm c.entries := by
      rw [entries, hnil]
      exact hg.perm.append_left _
    refine ⟨of_perm ?_ h.probation_capacity ?_ hperm hlength, hperm, ?_⟩
    · exact h.joined.exchange_right hg fun k hk => absurd hk List.not_mem_nil
    · exact hg.capacity_eq.trans h.guarded_capacity
    · show c.guarded.evict.2.size = c.guarded.size - 1
      rw [Lru.size_of_holds hg, hsize, hnil]
      rfl
  · rw [hevict]
    have hcount := hp.length_eq
    rw [List.length_cons, ← hsize] at hcount
    -- One protected entry less leaves room for one more in probation.
    obtain ⟨hjoined, hprobation, hguarded⟩ := h.joined.leave_right h.joined.right.distinct hp hg
    have hroom : c.probation.size < c.probation.capacity := by
      rw [h.probation_capacity]
      omega
    obtain ⟨-, hput, hjoined', hperm⟩ :=
      hjoined.insert_left Lru.lawful hprobation hguarded hroom e.value
    have hperm' : ((c.probation.put e.key e.value).2.entries ++ c.guarded.evict.2.entries).Perm
        c.entries := by
      refine hperm.trans (List.perm_middle.symm.trans (.append_left _ ?_))
      exact (hg.perm.cons e).trans hp.symm
    refine ⟨of_perm hjoined' ?_ ?_ hperm' hlength, hperm', ?_⟩
    · exact hput.capacity_eq.trans h.probation_capacity
    · exact hg.capacity_eq.trans h.guarded_capacity
    · show c.guarded.evict.2.size = c.guarded.size - 1
      rw [Lru.size_of_holds hg]
      omega

/-- A key that is not bound comes to the protected segment, which displaces nothing for it. -/
theorem promote (h : c.Fits n m) (hk : k ∉ keys c.entries) (hroom : c.size < n) (v : ν) :
    (c.promote k v).Fits n m ∧ (c.promote k v).entries.Perm (⟨k, v⟩ :: c.entries) := by
  -- Where the protected segment is full, the entry comes to the state after a demotion.
  have hplace : ∀ d : Segmented κ ν, d.Fits n m → d.entries.Perm c.entries →
      d.guarded.size < m →
      Fits n m { d with guarded := (d.guarded.put k v).2 } ∧
        (d.probation.entries ++ (d.guarded.put k v).2.entries).Perm (⟨k, v⟩ :: c.entries) := by
    intro d hd hp hlt
    have hout := mt (mem_keys_perm hp).1 hk
    rw [entries, not_mem_keys_append] at hout
    have hopen : d.guarded.size < d.guarded.capacity := by rwa [hd.guarded_capacity]
    obtain ⟨-, hput, hjoined, hperm⟩ :=
      hd.joined.insert_right Lru.lawful hout.1 hout.2 hopen v
    have hperm' := hperm.trans (hp.cons _)
    refine ⟨of_perm hjoined hd.probation_capacity ?_ hperm' ?_, hperm'⟩
    · exact hput.capacity_eq.trans hd.guarded_capacity
    · rw [List.length_cons, ← h.size_eq]
      exact hroom
  have hpos : 0 < m := h.guarded_capacity ▸ h.joined.right.capacity_pos
  have hle : c.guarded.size ≤ m := h.guarded_capacity ▸ h.joined.right.size_le
  rw [Segmented.promote]
  split
  · next hfull =>
    obtain ⟨hd, hp, hsize⟩ := h.demote
    exact hplace _ hd hp (by omega)
  · next hopen =>
    refine hplace c h (.refl _) ?_
    rw [Lru.isFull, h.guarded_capacity, decide_eq_true_iff] at hopen
    omega

theorem peek_promote (h : c.Fits n m) (k : κ) (v : ν) :
    (c.promote k v).guarded.peek k = some v := by
  rw [Segmented.promote]
  split
  · exact Lru.lawful.peek_put h.demote.1.joined.right k v
  · exact Lru.lawful.peek_put h.joined.right k v

/-- A key that leaves probation is not bound after that, and there is room for it. -/
theorem takeProbation (h : c.Fits n m) (hk : k ∈ keys c.probation.entries) :
    let d := { c with probation := (c.probation.remove k).2 }
    d.Fits n m ∧ d.size < n ∧ k ∉ keys d.entries ∧
      d.entries.Perm (erase Entry.key k c.entries) := by
  intro d
  have hr := (h.joined.left.remove k).holds
  have hout : k ∉ keys c.guarded.entries := h.joined.disjoint hk
  have hjoined : Store.Joined Lru.Valid Lru.Valid d.probation d.guarded :=
    h.joined.exchange_left hr fun k' hk' => .inl (mem_keys_erase.1 hk').1
  have hp : d.entries.Perm (erase Entry.key k c.entries) := by
    rw [entries, entries, erase_append, erase_eq_self_of_not_mem hout]
    exact hr.perm.append_right _
  have hbound : k ∈ keys c.entries := mem_keys_append.2 (.inl hk)
  obtain ⟨w, hw⟩ := exists_lookup?_eq_some hbound
  have hcount := length_erase_of_lookup? h.distinct hw
  have hle := h.size_le
  rw [h.size_eq] at hle
  have hd : d.Fits n m := by
    refine of_perm hjoined ?_ h.guarded_capacity hp (by omega)
    exact hr.capacity_eq.trans h.probation_capacity
  refine ⟨hd, ?_, ?_, hp⟩
  · rw [hd.size_eq, hp.length_eq]
    omega
  · rw [mem_keys_perm hp, mem_keys_erase]
    exact fun hmem => hmem.2 rfl

/-- Demoting any number of entries loses none. -/
theorem demoteMany (h : c.Fits n m) (count : Nat) :
    let d := count.repeat Segmented.demote c
    d.Fits n m ∧ d.entries.Perm c.entries ∧ d.guarded.size = c.guarded.size - count ∧
      d.capacity = c.capacity ∧ d.ratio = c.ratio := by
  induction count with
  | zero => exact ⟨h, .refl _, rfl, rfl, rfl⟩
  | succ count ih =>
    obtain ⟨hd, hp, hsize, hcapacity, hratio⟩ := ih
    obtain ⟨he, hp', hsize'⟩ := hd.demote
    refine ⟨he, hp'.trans hp, ?_, (demote_capacity _).trans hcapacity,
      (demote_ratio _).trans hratio⟩
    rw [Nat.repeat, hsize', hsize, Nat.sub_sub]

end Fits

/-! ## Operations -/

theorem remove_eq (c : Segmented κ ν) (k : κ) :
    c.remove k =
      let p := Store.removeEither c.probation c.guarded k
      (p.1, { c with probation := p.2.1, guarded := p.2.2 }) := by
  rcases hremove : c.probation.remove k with ⟨_ | w, p⟩
  · have hstore : Store.remove c.probation k = (none, p) := hremove
    rw [Segmented.remove, Store.removeEither, hremove, hstore]
    rfl
  · have hstore : Store.remove c.probation k = (some w, p) := hremove
    rw [Segmented.remove, Store.removeEither, hremove, hstore]

theorem evict_eq (c : Segmented κ ν) :
    c.evict =
      let p := Store.evictEither c.probation c.guarded
      (p.1, { c with probation := p.2.1, guarded := p.2.2 }) := by
  rcases hevict : c.probation.evict with ⟨_ | e, p⟩
  · have hstore : Store.evict c.probation = (none, p) := hevict
    rw [Segmented.evict, Store.evictEither, hevict, hstore]
    rfl
  · have hstore : Store.evict c.probation = (some e, p) := hevict
    rw [Segmented.evict, Store.evictEither, hevict, hstore]

namespace Valid

theorem size_eq (h : c.Valid ratio) : c.size = c.entries.length := h.fits.size_eq

theorem size_le (h : c.Valid ratio) : c.size ≤ c.capacity := h.fits.size_le

theorem length_le (h : c.Valid ratio) : c.entries.length ≤ c.capacity := by
  rw [← h.size_eq]
  exact h.size_le

theorem distinct (h : c.Valid ratio) : Distinct Entry.key c.entries := h.fits.distinct

theorem contains_eq (h : c.Valid ratio) (k : κ) :
    c.contains k = (lookup? k c.entries).isSome := by
  rw [Segmented.contains, Bool.or_comm]
  exact h.fits.joined.contains_eq Lru.lawful Lru.lawful k

theorem peek_eq (h : c.Valid ratio) (k : κ) : c.peek k = lookup? k c.entries := by
  have hpeek := h.fits.joined.symm.peek_eq Lru.lawful Lru.lawful k
  rw [h.fits.joined.symm.lookup?_comm Lru.lawful Lru.lawful] at hpeek
  exact hpeek

theorem remove (h : c.Valid ratio) (k : κ) : Store.Removes (Valid ratio) c k (c.remove k) := by
  obtain ⟨hvalue, hjoined, hp, hg⟩ := h.fits.joined.remove Lru.lawful Lru.lawful k
  have hlength : (erase Entry.key k c.entries).length ≤ c.capacity :=
    (length_erase_le k _).trans h.length_le
  have hperm := Store.Joined.perm hp hg
  rw [← erase_append] at hperm
  rw [remove_eq]
  exact ⟨hvalue, h.exchange hjoined hp.capacity_eq hg.capacity_eq hperm hlength⟩

theorem evict (h : c.Valid ratio) : Store.Evicts (Valid ratio) c c.evict := by
  obtain ⟨hnone, hjoined, lp, lg, hp, hholdsp, hholdsg⟩ :=
    h.fits.joined.evict Lru.lawful Lru.lawful
  have hlength : (lp ++ lg).length ≤ c.capacity := by
    have hcount : c.entries.length = _ := hp.length_eq
    have hle := h.length_le
    rw [List.length_append] at hcount
    omega
  have hperm := Store.Joined.perm hholdsp hholdsg
  rw [evict_eq]
  have hholds := h.exchange hjoined hholdsp.capacity_eq hholdsg.capacity_eq hperm hlength
  exact ⟨⟨lp ++ lg, hp, hholds⟩, hnone⟩

theorem evict_cases (h : c.Valid ratio) :
    (c.evict = (none, c.evict.2) ∧ c.entries = [] ∧
        Store.Holds (Valid ratio) c.capacity [] c.evict.2) ∨
      ∃ e rest, c.evict = (some e, c.evict.2) ∧ c.entries.Perm (e :: rest) ∧
        Store.Holds (Valid ratio) c.capacity rest c.evict.2 := h.evict.cases

theorem size_of_holds {l : List (Entry κ ν)} (h : Store.Holds (Valid ratio) n l c) :
    c.size = l.length :=
  h.inv.size_eq.trans h.perm.length_eq

theorem makeRoom (h : c.Valid ratio) : Store.MakesRoom (Valid ratio) c c.makeRoom :=
  Store.makesRoom_of_evicts h h.size_eq h.size_le h.capacity_pos decide_eq_true_iff h.evict

/-- There is a victim if there is no room. -/
theorem victim?_eq_none_iff (h : c.Valid ratio) : c.victim? = none ↔ c.size ≠ c.capacity := by
  have hle := h.size_le
  have hpos := h.capacity_pos
  rw [victim?]
  split
  · next hfull =>
    have hsize : c.size = c.capacity := Nat.le_antisymm hle (decide_eq_true_iff.1 hfull)
    rw [Option.or_eq_none_iff, h.fits.joined.left.oldest?_eq_none_iff,
      h.fits.joined.right.oldest?_eq_none_iff]
    refine ⟨?_, fun hne => absurd hsize hne⟩
    rintro ⟨hprobation, hguarded⟩
    rw [h.size_eq, entries, hprobation, hguarded] at hsize
    exact absurd hsize (Nat.ne_of_lt hpos)
  · next hopen =>
    refine ⟨fun _ hsize => hopen (decide_eq_true_iff.2 (Nat.le_of_eq hsize.symm)), fun _ => rfl⟩

/-- A key that is used in probation moves to the protected segment. -/
theorem promote (h : c.Valid ratio) (hk : k ∈ keys c.probation.entries) (v : ν) :
    Store.Holds (Valid ratio) (Store.capacity c) (⟨k, v⟩ :: erase Entry.key k c.entries)
      (Segmented.promote { c with probation := (c.probation.remove k).2 } k v) := by
  obtain ⟨hd, hroom, hout, hp⟩ := h.fits.takeProbation hk
  obtain ⟨he, hperm⟩ := hd.promote hout hroom v
  exact h.holds he (promote_capacity ..) (promote_ratio ..) (hperm.trans (hp.cons _))

/-- A bound key gets its value where it is, or moves to the protected segment; a new one goes to
probation. -/
theorem put (h : c.Valid ratio) (k : κ) (v : ν) :
    Store.Puts (Valid ratio) c k v (c.put k v) := by
  have hjoined := h.fits.joined
  rw [Segmented.put_def]
  split
  · next hcontains =>
    have hk := (hjoined.right.contains_iff k).1 hcontains
    have hbound : lookup? k c.entries ≠ none := lookup?_ne_none_iff.2 (mem_keys_append.2 (.inr hk))
    obtain ⟨-, hput, hjoined', hp⟩ := hjoined.put_right Lru.lawful
      (fun hmem => hjoined.disjoint hmem hk) (.inl hk) v
    have hlength : (⟨k, v⟩ :: erase Entry.key k c.entries).length ≤ c.capacity :=
      length_insert_le h.distinct h.length_le (.inl (lookup?_ne_none_iff.1 hbound)) v
    exact Store.puts_none (.inl hbound) (h.exchange hjoined' rfl hput.capacity_eq hp hlength)
  next hcontains =>
  by_cases hk : k ∈ keys c.probation.entries
  · obtain ⟨w, -, hremove⟩ := hjoined.left.exists_remove_eq hk
    have hbound : lookup? k c.entries ≠ none := lookup?_ne_none_iff.2 (mem_keys_append.2 (.inl hk))
    rw [hremove]
    exact Store.puts_none (.inl hbound) (h.promote hk v)
  · rw [hjoined.left.remove_of_not_mem hk]
    have hunbound : k ∉ keys c.entries :=
      not_mem_keys_append.2 ⟨hk, mt (hjoined.right.contains_iff k).2 hcontains⟩
    -- All entries together leave room, so probation does, which may take up the whole capacity.
    obtain ⟨hd, hcapacity, hlt⟩ := h.makeRoom.size_lt size_eq
    refine h.makeRoom.puts hunbound ?_
    have hout : k ∉ keys c.makeRoom.2.entries := h.makeRoom.not_mem_keys hunbound
    have hcapacity' : c.makeRoom.2.capacity = c.capacity := hcapacity
    rw [entries, not_mem_keys_append] at hout
    have hopen : c.makeRoom.2.probation.size < c.makeRoom.2.probation.capacity := by
      rw [hd.fits.probation_capacity, hcapacity']
      exact Nat.lt_of_le_of_lt (Nat.le_add_right ..) hlt
    obtain ⟨-, hput, hjoined', hp⟩ :=
      hd.fits.joined.insert_left Lru.lawful hout.1 hout.2 hopen v
    have hlength : (⟨k, v⟩ :: c.makeRoom.2.entries).length ≤ c.makeRoom.2.capacity := by
      rw [List.length_cons, ← hd.size_eq, hcapacity']
      exact hlt
    rw [← hcapacity]
    exact hd.exchange hjoined' hput.capacity_eq rfl hp hlength

/-- A key that is used in probation moves to the protected segment. -/
theorem get (h : c.Valid ratio) (k : κ) : Store.Gets (Valid ratio) c k (c.get k) := by
  have hjoined := h.fits.joined
  have hlookup : lookup? k c.entries =
      (lookup? k c.probation.entries).or (lookup? k c.guarded.entries) := lookup?_append k
  rw [Segmented.get_def]
  split
  · next hcontains =>
    have hk := (hjoined.right.contains_iff k).1 hcontains
    obtain ⟨hvalue, hg⟩ := hjoined.right.get k
    have hp : (c.probation.entries ++ (c.guarded.get k).2.entries).Perm c.entries :=
      hg.perm.append_left _
    refine ⟨?_, h.exchange ?_ rfl hg.capacity_eq hp ?_⟩
    · have hout : k ∉ keys c.probation.entries := fun hmem => hjoined.disjoint hmem hk
      show (c.guarded.get k).1 = lookup? k c.entries
      rw [hlookup, lookup?_eq_none_iff.2 hout, Option.none_or]
      exact hvalue
    · exact hjoined.exchange_right hg fun k' hk' => .inl hk'
    · exact h.length_le
  next hcontains =>
  by_cases hk : k ∈ keys c.probation.entries
  · obtain ⟨w, hw, hremove⟩ := hjoined.left.exists_remove_eq hk
    have hbound : lookup? k c.entries = some w := by rw [hlookup, hw, Option.some_or]
    obtain ⟨hinv, hcapacity, hp⟩ := h.promote hk w
    rw [hremove]
    refine ⟨?_, hinv, hcapacity, hp.trans (perm_of_lookup? h.distinct hbound).symm⟩
    show _ = lookup? k c.entries
    rw [hbound]
    exact (h.fits.takeProbation hk).1.peek_promote k w
  · rw [hjoined.left.remove_of_not_mem hk]
    refine ⟨?_, h, rfl, .refl _⟩
    show none = lookup? k c.entries
    rw [hlookup, lookup?_eq_none_iff.2 hk,
      lookup?_eq_none_iff.2 (mt (hjoined.right.contains_iff k).2 hcontains)]
    rfl

/-- A lookup signals whether it finds a value. -/
theorem getAloud_eq (h : c.Valid ratio) (k : κ) : c.getAloud k = announceLookup (c.get k) := by
  have hjoined := h.fits.joined
  rw [getAloud, Segmented.get_def]
  by_cases hguarded : c.guarded.contains k = true
  · rw [if_pos hguarded, if_pos hguarded]
    have hfound := Lru.lawful.isSome_get hjoined.right k
    exact Aloud.announceLookup_of_isSome (hfound.trans hguarded)
  rw [if_neg hguarded, if_neg hguarded]
  by_cases hk : k ∈ keys c.probation.entries
  · obtain ⟨w, -, hremove⟩ := hjoined.left.exists_remove_eq hk
    have hfound := (h.fits.takeProbation hk).1.peek_promote k w
    rw [hremove]
    exact Aloud.announceLookup_of_isSome (congrArg Option.isSome hfound)
  · rw [hjoined.left.remove_of_not_mem hk]
    rfl

theorem clear (h : c.Valid ratio) : Store.Holds (Valid ratio) c.capacity [] c.clear := by
  have hp := h.fits.joined.left.clear
  have hg := h.fits.joined.right.clear
  have hperm : c.clear.entries.Perm [] := hp.perm.append hg.perm
  refine h.exchange ?_ hp.capacity_eq hg.capacity_eq hperm (Nat.zero_le _)
  exact h.fits.joined.narrow hp hg (List.nil_subset _) (List.nil_subset _)

/-- Probation may get any capacity that is not too small for all entries. -/
theorem widen (h : c.Valid ratio) (hn : 0 < n) (hfits : c.size ≤ n) :
    Fits n c.guarded.capacity { c with probation := { c.probation with capacity := n } } := by
  have hresized := h.fits.joined.left.withCapacity hn ((Nat.le_add_right ..).trans hfits)
  exact ⟨h.fits.joined.exchange_left hresized fun k hk => .inl hk, rfl, rfl, hfits⟩

theorem guarded_size_demoteMany_le (h : c.Valid ratio) (hn : 0 < n) (hfits : c.size ≤ n) :
    ((c.guarded.size - m).repeat Segmented.demote
      { c with probation := { c.probation with capacity := n } }).guarded.size ≤ m := by
  obtain ⟨-, -, hcount, -⟩ := (h.widen hn hfits).demoteMany (c.guarded.size - m)
  have hcount' : _ = c.guarded.size - (c.guarded.size - m) := hcount
  omega

/-- What happens to the segments of a store whose entries fit into the new capacity. -/
theorem resizeSegments (h : c.Valid ratio) (hn : 0 < n) (hm : 0 < (Split.ofRatio n ratio).guarded)
    (hfits : c.size ≤ n) :
    let count := c.guarded.size - (Split.ofRatio n ratio).guarded
    let d := count.repeat Segmented.demote
      { c with probation := { c.probation with capacity := n } }
    c.probation.resize n = .ok ([], { c.probation with capacity := n }) ∧
      d.guarded.resize (Split.ofRatio n ratio).guarded =
        .ok ([], { d.guarded with capacity := (Split.ofRatio n ratio).guarded }) ∧
      Store.Holds (Valid ratio) n c.entries { d with
        capacity := n
        guarded := { d.guarded with capacity := (Split.ofRatio n ratio).guarded } } := by
  intro count d
  have hprobation : c.probation.size ≤ n := (Nat.le_add_right ..).trans hfits
  -- The capacities of the segments change one after the other; entries move in between.
  obtain ⟨hd, hp, -, -, hratio⟩ := (h.widen hn hfits).demoteMany count
  have hguarded := h.guarded_size_demoteMany_le (m := (Split.ofRatio n ratio).guarded) hn hfits
  have hresized' := hd.joined.right.withCapacity hm hguarded
  refine ⟨Lru.resize_of_fits hn hprobation, Lru.resize_of_fits hm hguarded, ?_, rfl, hp⟩
  refine ⟨hratio.trans h.ratio_eq, ?_, hd.probation_capacity, rfl, hd.size_le⟩
  exact hd.joined.exchange_right hresized' fun k hk => .inl hk

end Valid

theorem layout_eq_ok_iff {split : Split} :
    layout n ratio = .ok split ↔
      0 < n ∧ 0 < (Split.ofRatio n ratio).guarded ∧ Split.ofRatio n ratio = split := by
  constructor
  · intro h
    obtain ⟨_, hn, h⟩ := bind_eq_ok_iff.1 h
    obtain ⟨hsplit, hok⟩ := ite_throw_eq_ok_iff.1 h
    cases hok
    rw [not_or] at hsplit
    exact ⟨requireCapacity_eq_ok_iff.1 hn, Nat.pos_of_ne_zero hsplit.2, rfl⟩
  · rintro ⟨hn, hm, rfl⟩
    have hpos := Split.probation_pos hn ratio
    refine bind_eq_ok_iff.2 ⟨(), requireCapacity_eq_ok_iff.2 hn, ?_⟩
    exact ite_throw_eq_ok_iff.2 ⟨not_or.2 ⟨Nat.ne_of_gt hpos, Nat.ne_of_gt hm⟩, rfl⟩

namespace Valid

/-- A resize to a capacity that can be divided up. -/
theorem exists_resize (h : c.Valid ratio) (hn : 0 < n) (hm : 0 < (Split.ofRatio n ratio).guarded) :
    ∃ d rest, c.resize n = .ok ((evictMany Segmented.evict (c.size - n) c).1, d) ∧
      c.entries.Perm ((evictMany Segmented.evict (c.size - n) c).1 ++ rest) ∧
      Store.Holds (Valid ratio) n rest d := by
  obtain ⟨rest, hp, he, hfits⟩ := Store.evictMany_excess_of_evicts size_eq evict h n
  obtain ⟨hprobation, hguarded, hholds⟩ := he.inv.resizeSegments hn hm hfits
  refine ⟨_, rest, ?_, hp, hholds.inv, hholds.capacity_eq, hholds.perm.trans he.perm⟩
  have hlayout : layout n c.ratio = .ok (Split.ofRatio n ratio) :=
    layout_eq_ok_iff.2 ⟨hn, h.ratio_eq ▸ hm, h.ratio_eq ▸ rfl⟩
  rw [resize_def]
  refine bind_eq_ok_iff.2 ⟨_, hlayout, ?_⟩
  refine bind_eq_ok_iff.2 ⟨_, hprobation, ?_⟩
  exact bind_eq_ok_iff.2 ⟨_, hguarded, rfl⟩

theorem resize (h : c.Valid ratio) {dropped : List (Entry κ ν)}
    (hd : c.resize n = .ok (dropped, d)) :
    ∃ rest, c.entries.Perm (dropped ++ rest) ∧ Store.Holds (Valid ratio) n rest d := by
  have hdone := hd
  rw [resize_def] at hdone
  obtain ⟨split, hlayout, -⟩ := bind_eq_ok_iff.1 hdone
  rw [h.ratio_eq] at hlayout
  obtain ⟨hn, hm, -⟩ := layout_eq_ok_iff.1 hlayout
  obtain ⟨d', rest, heq, hp, hholds⟩ := h.exists_resize hn hm
  obtain ⟨rfl, rfl⟩ := Prod.mk.inj (Except.ok.inj (heq.symm.trans hd))
  exact ⟨rest, hp, hholds⟩

end Valid

theorem create_holds (hc : create n ratio = .ok c) : Store.Holds (Valid ratio) n [] c := by
  obtain ⟨_, -, hc⟩ := bind_eq_ok_iff.1 hc
  obtain ⟨split, hlayout, hc⟩ := bind_eq_ok_iff.1 hc
  obtain ⟨hn, hm, rfl⟩ := layout_eq_ok_iff.1 hlayout
  obtain ⟨p, hp, hc⟩ := bind_eq_ok_iff.1 hc
  obtain ⟨g, hg, hc⟩ := bind_eq_ok_iff.1 hc
  obtain ⟨-, rfl⟩ := Lru.create_eq_ok_iff.1 hp
  obtain ⟨-, rfl⟩ := Lru.create_eq_ok_iff.1 hg
  cases hc
  refine ⟨⟨rfl, ⟨?_, rfl, rfl, Nat.zero_le n⟩⟩, rfl, .refl _⟩
  exact ⟨Lru.empty_valid hn, Lru.empty_valid hm, List.disjoint_nil_left _⟩

theorem lawful (ratio : Float) : Store.Lawful (Valid ratio : Segmented κ ν → Prop) where
  distinct h := h.distinct
  size_eq h := h.size_eq
  size_le h := h.size_le
  capacity_pos h := h.capacity_pos
  contains_eq h k := h.contains_eq k
  peek_eq h k := h.peek_eq k
  get h k := h.get k
  put h k v := h.put k v
  remove h k := h.remove k
  evict h := h.evict
  clear h := h.clear
  resize h _ _ _ hd := h.resize hd
  getAloud_eq h k := h.getAloud_eq k
  setSamples h _ := ⟨h, rfl, .refl _⟩

end Segmented

end BoundedCache
