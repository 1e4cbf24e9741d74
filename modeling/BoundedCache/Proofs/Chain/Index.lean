import BoundedCache.Proofs.Chain.Represents
import Std.Data.HashMap.Lemmas

/-!
# Chains with an index

The recency store and the frequency store both keep their entries in a chain, with an index that
leads from a key to the slot of its entry. This file says when the two agree, and that they go on to
agree when an entry comes, goes, moves, or changes apart from its key.

## Main definitions

- `Chain.Indexed` — a chain stands for a list with distinct keys, and the index tells their slots

## Main results

- `Chain.Indexed.insert`, `Chain.Indexed.erase`, `Chain.Indexed.relink`, `Chain.Indexed.modify` —
  the four ways of changing both
-/

namespace BoundedCache.Chain

open Keyed

variable {α κ : Type}

/-- The key of the value in a slot. -/
def valueKey (key : α → κ) (x : Slot × α) : κ := key x.2

@[simp]
theorem valueKey_mk (key : α → κ) (i : Slot) (x : α) : valueKey key (i, x) = key x := rfl

theorem find?_values [DecidableEq κ] (key : α → κ) (l : List (Slot × α)) (k : κ) :
    find? key k (l.map Prod.snd) = (find? (valueKey key) k l).map Prod.snd :=
  find?_map (fun _ => rfl) l

variable [DecidableEq κ] [Hashable κ] {key : α → κ} {c d : Chain α}
  {index : Std.HashMap κ Slot} {k : κ} {i : Slot} {x : α} {l m xs ys : List (Slot × α)}

/-- The chain stands for a list in which no key occurs twice, and the index tells the slot of every
key. -/
structure Indexed (key : α → κ) (c : Chain α) (index : Std.HashMap κ Slot)
    (l : List (Slot × α)) : Prop where
  represents : c.Represents l
  distinct : Distinct (valueKey key) l
  index_eq : ∀ k, index[k]? = (find? (valueKey key) k l).map Prod.fst

namespace Indexed

theorem empty : Indexed key (∅ : Chain α) ∅ [] where
  represents := represents_empty
  distinct := List.nodup_nil
  index_eq _ := Std.HashMap.getElem?_empty

/-! ## Looking for a key -/

theorem distinct_values (h : Indexed key c index l) : Distinct key (l.map Prod.snd) := by
  have hd := h.distinct
  rw [Distinct, List.map_map]
  exact hd

theorem index_eq_none_iff (h : Indexed key c index l) :
    index[k]? = none ↔ find? key k (l.map Prod.snd) = none := by
  rw [h.index_eq, find?_values, Option.map_eq_none_iff, Option.map_eq_none_iff]

theorem contains_eq (h : Indexed key c index l) (k : κ) :
    index.contains k = (find? key k (l.map Prod.snd)).isSome := by
  rw [Std.HashMap.contains_eq_isSome_getElem?, h.index_eq, find?_values, Option.isSome_map,
    Option.isSome_map]

/-- The slot of a key, and the place of its entry. -/
theorem exists_split (h : Indexed key c index l) (hi : index[k]? = some i) :
    ∃ xs x ys, l = xs ++ (i, x) :: ys ∧ key x = k := by
  rw [h.index_eq, Option.map_eq_some_iff] at hi
  obtain ⟨⟨i', x⟩, hfind, rfl⟩ := hi
  obtain ⟨xs, ys, hl, hk⟩ := exists_split_of_find?_eq_some hfind
  exact ⟨xs, x, ys, hl, hk⟩

theorem index_eq_some (h : Indexed key c index (xs ++ (i, x) :: ys)) : index[key x]? = some i := by
  have hfind := find?_append_cons h.distinct
  rw [valueKey_mk] at hfind
  rw [h.index_eq, hfind]
  rfl

/-- The entry of a key, read through the index. -/
theorem bind_get? (h : Indexed key c index l) (k : κ) :
    index[k]?.bind c.get? = find? key k (l.map Prod.snd) := by
  rcases hi : index[k]? with _ | i
  · rw [h.index_eq_none_iff.1 hi]
    rfl
  · obtain ⟨xs, x, ys, rfl, rfl⟩ := h.exists_split hi
    have hget : c.get? i = some x := h.represents.get?_eq_some_iff.2 (by simp)
    have hfind := find?_append_cons h.distinct
    rw [valueKey_mk] at hfind
    rw [find?_values, hfind]
    exact hget

/-! ## Changing both -/

/-- The entries change their order only. -/
theorem relink (h : Indexed key c index l) (hd : d.Represents m) (hp : m.Perm l) :
    Indexed key d index m where
  represents := hd
  distinct := h.distinct.perm hp.symm
  index_eq k := by rw [h.index_eq, find?_perm h.distinct hp.symm]

/-- An entry with a new key comes. -/
theorem insert (h : Indexed key c index l) (hnew : find? key (key x) (l.map Prod.snd) = none)
    (hd : d.Represents m) (hp : m.Perm ((i, x) :: l)) :
    Indexed key d (index.insert (key x) i) m := by
  rw [find?_values, Option.map_eq_none_iff, find?_eq_none_iff] at hnew
  have hdistinct : Distinct (valueKey key) ((i, x) :: l) :=
    distinct_cons_iff.2 ⟨hnew, h.distinct⟩
  refine ⟨hd, hdistinct.perm hp.symm, fun k => ?_⟩
  rw [find?_perm (hdistinct.perm hp.symm) hp, Std.HashMap.getElem?_insert]
  by_cases hk : key x = k
  · subst hk
    have hfind : find? (valueKey key) (valueKey key (i, x)) ((i, x) :: l) = some (i, x) :=
      find?_cons_self
    rw [valueKey_mk] at hfind
    rw [if_pos (beq_self_eq_true _), hfind]
    rfl
  · have hfind : find? (valueKey key) k ((i, x) :: l) = find? (valueKey key) k l :=
      find?_cons_of_ne hk
    rw [if_neg (by simpa using hk), hfind, h.index_eq]

/-- An entry goes. -/
theorem erase (h : Indexed key c index (xs ++ (i, x) :: ys)) (hd : d.Represents (xs ++ ys)) :
    Indexed key d (index.erase (key x)) (xs ++ ys) where
  represents := hd
  distinct := (distinct_cons_iff.1 (distinct_append_cons_iff.1 h.distinct)).2
  index_eq k := by
    have herase := erase_append_cons h.distinct
    rw [valueKey_mk] at herase
    rw [Std.HashMap.getElem?_erase, ← herase, find?_erase]
    by_cases hk : key x = k
    · subst hk
      rw [if_pos (beq_self_eq_true _), if_pos rfl]
      rfl
    · rw [if_neg (by simpa using hk), if_neg (Ne.symm hk), h.index_eq]

/-- An entry changes, but keeps its key. -/
theorem modify (h : Indexed key c index l) {f : α → α} (hf : ∀ x, key (f x) = key x) (i : Slot) :
    Indexed key (c.modify i f) index (Keyed.modify Prod.fst i (fun x => (x.1, f x.2)) l) := by
  have hkey (x : Slot × α) :
      valueKey key (if x.1 = i then (x.1, f x.2) else x) = valueKey key x := by
    split
    · exact hf x.2
    · rfl
  have hslot (x : Slot × α) : (if x.1 = i then (x.1, f x.2) else x).1 = x.1 := by
    split <;> rfl
  refine ⟨h.represents.modify i f, ?_, fun k => ?_⟩
  · have hd := h.distinct
    rw [Distinct, Keyed.modify, List.map_map]
    rw [Distinct] at hd
    convert hd using 2
    funext x
    exact hkey x
  · rw [h.index_eq, Keyed.modify, find?_map hkey, Option.map_map]
    congr 1
    funext x
    exact (hslot x).symm

theorem modify_at (h : Indexed key c index (xs ++ (i, x) :: ys)) {f : α → α}
    (hf : ∀ x, key (f x) = key x) :
    Indexed key (c.modify i f) index (xs ++ (i, f x) :: ys) := by
  have hmodified := h.modify hf i
  rw [modify_append_cons h.represents.distinct] at hmodified
  exact hmodified

end Indexed

end BoundedCache.Chain
