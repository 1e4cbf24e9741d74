import BoundedCache.Proofs.Store.Entries
import BoundedCache.Store.Sampled

/-!
# Slots and index of sampled stores

The index leads from a key to the slot that holds it, and only there. One equivalence states both
halves, and that no key is held twice.

## Main definitions

- `Sampled.Inverse` — an index is the inverse of a list of keys

## Main results

- `Sampled.Inverse.push`, `Sampled.Inverse.swapRemove` — a key comes to the end, or goes
- `Sampled.removeAt_spec` — the entry in a slot goes, and no other one
-/

namespace BoundedCache.Sampled

open Keyed

variable {α κ ν : Type} [DecidableEq κ] [Hashable κ]

/-- An index is the inverse of a list of keys. -/
def Inverse (index : Std.HashMap κ Nat) (l : List κ) : Prop :=
  ∀ (k : κ) (i : Nat), index[k]? = some i ↔ l[i]? = some k

theorem getElem?_concat_eq_some_iff {l : List α} {a b : α} {i : Nat} :
    (l ++ [a])[i]? = some b ↔ l[i]? = some b ∨ i = l.length ∧ a = b := by
  rw [List.getElem?_append]
  split
  · next hi =>
    exact ⟨.inl, fun h => h.resolve_right fun hend => Nat.ne_of_lt hi hend.1⟩
  · next hi =>
    rw [List.getElem?_singleton, List.getElem?_eq_none (Nat.le_of_not_lt hi)]
    by_cases hend : i = l.length
    · simp [hend]
    · have hpos : i - l.length ≠ 0 := by omega
      simp [hend, hpos]

namespace Inverse

variable {index : Std.HashMap κ Nat} {l ks : List κ} {k last : κ} {i : Nat}

theorem nil : Inverse (∅ : Std.HashMap κ Nat) [] := by
  intro k i
  simp

/-- No key is held twice, as the index leads to one slot only. -/
theorem nodup (h : Inverse index l) : l.Nodup := by
  rw [List.nodup_iff_getElem?_ne_getElem?]
  intro i j hij hj heq
  have hat : l[j]? = some l[j] := List.getElem?_eq_getElem hj
  have hi := (h l[j] i).2 (heq.trans hat)
  rw [(h l[j] j).2 hat] at hi
  exact absurd (Option.some.inj hi) (Nat.ne_of_gt hij)

theorem eq_none_iff (h : Inverse index l) : index[k]? = none ↔ k ∉ l := by
  constructor
  · intro hnone hmem
    obtain ⟨i, hi⟩ := List.mem_iff_getElem?.1 hmem
    rw [(h k i).2 hi] at hnone
    cases hnone
  · intro hout
    cases hi : index[k]? with
    | none => rfl
    | some i => exact absurd (List.mem_of_getElem? ((h k i).1 hi)) hout

/-- A new key comes to the end. -/
theorem push (h : Inverse index l) (hk : k ∉ l) : Inverse (index.insert k l.length) (l ++ [k]) := by
  intro k' i
  rw [Std.HashMap.getElem?_insert, getElem?_concat_eq_some_iff, ← h k' i]
  by_cases hkey : k = k'
  · subst hkey
    rw [h.eq_none_iff.2 hk]
    simp [eq_comm]
  · simp [hkey]

theorem last_not_mem (h : Inverse index (ks ++ [last])) : last ∉ ks := by
  have hnodup := h.nodup
  rw [List.nodup_append] at hnodup
  intro hmem
  exact hnodup.2.2 last hmem last List.mem_cons_self rfl

/-- Where the other keys are does not depend on the last one. -/
theorem of_ne_last (h : Inverse index (ks ++ [last])) {k : κ} (hne : last ≠ k) (i : Nat) :
    index[k]? = some i ↔ ks[i]? = some k := by
  rw [h k i, getElem?_concat_eq_some_iff]
  simp [hne]

theorem dropLast (h : Inverse index (ks ++ [last])) : Inverse (index.erase last) ks := by
  intro k i
  rw [Std.HashMap.getElem?_erase]
  by_cases hgone : last = k
  · subst hgone
    have hout : ks[i]? ≠ some last := by
      intro hi
      exact h.last_not_mem (List.mem_of_getElem? hi)
    simp [hout]
  · simp [hgone, h.of_ne_last hgone i]

/-- A key goes, and the last one takes its slot. -/
theorem fill (h : Inverse index (ks ++ [last])) (hk : ks[i]? = some k) :
    Inverse ((index.erase k).insert last i) (ks.set i last) := by
  have hi : i < ks.length := (List.getElem?_eq_some_iff.1 hk).1
  intro k' j
  rw [Std.HashMap.getElem?_insert, Std.HashMap.getElem?_erase, List.getElem?_set]
  by_cases hij : i = j
  · -- Nothing but the last key is in the slot now.
    subst hij
    by_cases hmoved : last = k'
    · simp [hmoved, hi]
    · have hout : k ≠ k' → index[k']? ≠ some i := by
        intro hgone hat
        rw [h.of_ne_last hmoved, hk] at hat
        exact hgone (Option.some.inj hat)
      by_cases hgone : k = k'
      · simp [hgone, hi, hmoved]
      · simp [hgone, hi, hmoved, hout hgone]
  · by_cases hmoved : last = k'
    · have hout : ks[j]? ≠ some k' := by
        intro hj
        exact h.last_not_mem (List.mem_of_getElem? (hmoved ▸ hj))
      simp [hmoved, hij, hout]
    · by_cases hgone : k = k'
      · subst hgone
        have hout : ks[j]? ≠ some k := by
          intro hj
          have hat := (h.of_ne_last hmoved i).2 hk
          rw [(h.of_ne_last hmoved j).2 hj] at hat
          exact hij (Option.some.inj hat).symm
        simp [hij, hmoved, hout]
      · simp [hij, hmoved, hgone, h.of_ne_last hmoved j]

/-- A key goes, and the last one takes its slot unless that was the last slot. -/
theorem swapRemove (h : Inverse index (ks ++ [last])) (hk : (ks ++ [last])[i]? = some k) :
    Inverse (match (ks.set i last)[i]? with
      | none => index.erase k
      | some moved => (index.erase k).insert moved i) (ks.set i last) := by
  rcases getElem?_concat_eq_some_iff.1 hk with hbefore | ⟨rfl, rfl⟩
  · rw [List.getElem?_set_self (List.getElem?_eq_some_iff.1 hbefore).1]
    exact h.fill hbefore
  · rw [List.set_eq_of_length_le (Nat.le_refl _), List.getElem?_eq_none (Nat.le_refl _)]
    exact h.dropLast

end Inverse

/-! ## Slots -/

/-- When the element in a slot goes, the last one takes its slot. -/
theorem toList_swapRemove {slots : Array α} {xs : List α} {y : α} {i : Nat}
    (h : slots.toList = xs ++ [y]) (hi : i ≤ xs.length) :
    (slots.swapIfInBounds i (slots.size - 1)).pop.toList = xs.set i y := by
  obtain ⟨l⟩ := slots
  obtain rfl : l = xs ++ [y] := h
  apply List.ext_getElem?
  intro j
  rw [Array.getElem?_toList, Array.getElem?_pop]
  grind

theorem perm_set {xs : List α} {x y : α} {i : Nat} (h : (xs ++ [y])[i]? = some x) :
    (xs ++ [y]).Perm (x :: xs.set i y) := by
  rcases getElem?_concat_eq_some_iff.1 h with hbefore | ⟨rfl, rfl⟩
  · obtain ⟨hi, hx⟩ := List.getElem?_eq_some_iff.1 hbefore
    obtain ⟨as, bs, hxs, -, hset⟩ := List.exists_of_set hi
    rw [hx] at hxs
    rw [hset, hxs, List.append_assoc, List.cons_append]
    refine List.perm_middle.trans (.cons x ?_)
    exact (List.perm_append_singleton ..).append_left as
  · rw [List.set_eq_of_length_le (Nat.le_refl _)]
    exact List.perm_append_singleton ..

variable {c : Sampled κ ν} {i : Nat} {x : Stamped κ ν}

/-- The entry in a slot goes, and no other one. -/
theorem removeAt_spec (h : Inverse c.index (keys c.entries)) (hx : c.slots[i]? = some x) :
    let p := c.removeAt i
    p.1 = some x.entry ∧ c.entries.Perm (x.entry :: p.2.entries) ∧
      Inverse p.2.index (keys p.2.entries) ∧ p.2.capacity = c.capacity := by
  rw [removeAt, hx]
  rcases List.eq_nil_or_concat' c.slots.toList with hnil | ⟨xs, y, hslots⟩
  · rw [← Array.getElem?_toList, hnil] at hx
    cases hx
  rw [← Array.getElem?_toList, hslots] at hx
  have hi : i ≤ xs.length := by
    have hlt := (List.getElem?_eq_some_iff.1 hx).1
    rw [List.length_append, List.length_singleton] at hlt
    omega
  have htoList := toList_swapRemove hslots hi
  generalize (c.slots.swapIfInBounds i (c.slots.size - 1)).pop = slots at htoList ⊢
  refine ⟨rfl, ?_, ?_, rfl⟩
  · show (c.slots.toList.map _).Perm (x.entry :: slots.toList.map _)
    rw [hslots, htoList]
    exact (perm_set hx).map Stamped.entry
  · -- On the keys alone this is what `Inverse.swapRemove` says.
    let key (z : Stamped κ ν) : κ := z.entry.key
    have hkeys : keys c.entries = xs.map key ++ [key y] := by
      rw [keys, entries, hslots, List.map_map, List.map_append]
      rfl
    have hkeys' : keys (slots.toList.map Stamped.entry) = (xs.map key).set i (key y) := by
      rw [keys, htoList, List.map_map, ← List.map_set]
      rfl
    have hk : (xs.map key ++ [key y])[i]? = some (key x) := by
      rw [← List.map_singleton, ← List.map_append, List.getElem?_map, hx]
      rfl
    rw [hkeys] at h
    have hinverse := h.swapRemove hk
    have hat : ((xs.map key).set i (key y))[i]? = slots[i]?.map key := by
      rw [← List.map_set, List.getElem?_map, ← htoList, Array.getElem?_toList]
    rw [hat] at hinverse
    rw [← hkeys'] at hinverse
    dsimp only
    rcases hmoved : slots[i]? with _ | moved
    · rw [hmoved] at hinverse
      exact hinverse
    · rw [hmoved] at hinverse
      exact hinverse

end BoundedCache.Sampled
