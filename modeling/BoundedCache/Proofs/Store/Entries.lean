import BoundedCache.Proofs.Keyed
import BoundedCache.Store.Basic

/-!
# Lists of entries

What a list of entries binds a key to, and how this changes when an entry comes or goes. Lists are
compared up to their order. The last section is about stores that keep their entries in two parts.

## Main definitions

- `lookup?` — the value that a list of entries binds a key to
- `keys` — the keys that are bound

## Main results

- `perm_of_lookup?` — a bound key stands at one place, with its value
- `append_insert_left`, `append_insert_right` — a binding made in one of two parts
-/

namespace BoundedCache

open Keyed

variable {κ ν : Type}

/-! ## Keys -/

/-- The keys that a list of entries binds. -/
def keys (l : List (Entry κ ν)) : List κ := l.map Entry.key

variable {k k' : κ} {v : ν} {e : Entry κ ν} {l xs ys xs' ys' : List (Entry κ ν)}

theorem mem_keys_perm (hp : xs.Perm ys) : k ∈ keys xs ↔ k ∈ keys ys :=
  (hp.map Entry.key).mem_iff

theorem keys_append : keys (xs ++ ys) = keys xs ++ keys ys := List.map_append

theorem mem_keys_append : k ∈ keys (xs ++ ys) ↔ k ∈ keys xs ∨ k ∈ keys ys := by
  rw [keys_append, List.mem_append]

theorem not_mem_keys_append : k ∉ keys (xs ++ ys) ↔ k ∉ keys xs ∧ k ∉ keys ys := by
  rw [mem_keys_append, not_or]

/-- What is left was there before. -/
theorem mem_keys_of_kept {gone : List (Entry κ ν)} (hp : xs.Perm (gone ++ ys)) (hk : k ∈ keys ys) :
    k ∈ keys xs :=
  (mem_keys_perm hp).2 (mem_keys_append.2 (.inr hk))

/-- An entry that went leaves all keys but its own. -/
theorem mem_keys_of_perm_cons (hp : xs.Perm (e :: ys)) : k ∈ keys xs ↔ k = e.key ∨ k ∈ keys ys := by
  rw [mem_keys_perm hp, keys, List.map_cons, List.mem_cons]
  rfl

theorem head_mem_keys (hp : xs.Perm (e :: ys)) : e.key ∈ keys xs :=
  (mem_keys_of_perm_cons hp).2 (.inl rfl)

theorem mem_keys_of_rest (hp : xs.Perm (e :: ys)) (hk : k ∈ keys ys) : k ∈ keys xs :=
  (mem_keys_of_perm_cons hp).2 (.inr hk)

theorem not_mem_keys_rest (h : Distinct Entry.key xs) (hp : xs.Perm (e :: ys)) :
    e.key ∉ keys ys := by
  have hne := (distinct_cons_iff.1 (h.perm hp)).1
  intro hmem
  obtain ⟨x, hx, hk⟩ := List.mem_map.1 hmem
  exact hne x hx hk

theorem distinct_append_iff_disjoint : Distinct Entry.key (xs ++ ys) ↔
    Distinct Entry.key xs ∧ Distinct Entry.key ys ∧ List.Disjoint (keys xs) (keys ys) := by
  rw [Distinct, List.map_append, List.nodup_append']
  rfl

/-- Keys that replace others stay apart from a list if they were apart from it or are not in it. -/
theorem disjoint_exchange_left {old new other : List κ} (h : List.Disjoint old other)
    (hnew : ∀ k ∈ new, k ∈ old ∨ k ∉ other) : List.Disjoint new other := by
  intro k hk hk'
  rcases hnew k hk with hold | hout
  · exact h hold hk'
  · exact hout hk'

theorem disjoint_exchange_right {old new other : List κ} (h : List.Disjoint other old)
    (hnew : ∀ k ∈ new, k ∈ old ∨ k ∉ other) : List.Disjoint other new := by
  intro k hk' hk
  rcases hnew k hk with hold | hout
  · exact h hk' hold
  · exact hout hk'

theorem disjoint_mono {xs ys xs' ys' : List κ} (h : List.Disjoint xs ys) (hx : xs' ⊆ xs)
    (hy : ys' ⊆ ys) : List.Disjoint xs' ys' :=
  fun _ hk hk' => h (hx hk) (hy hk')

theorem keys_subset_of_perm (hp : xs.Perm ys) : keys xs ⊆ keys ys :=
  (hp.map Entry.key).subset

variable [DecidableEq κ]

/-! ## Bindings -/

/-- The value that a list of entries binds a key to. -/
def lookup? (key : κ) (entries : List (Entry κ ν)) : Option ν :=
  (find? Entry.key key entries).map Entry.value

theorem lookup?_isSome (key : κ) (entries : List (Entry κ ν)) :
    (lookup? key entries).isSome = (find? Entry.key key entries).isSome :=
  Option.isSome_map

theorem lookup?_perm (h : Distinct Entry.key xs) (hp : xs.Perm ys) (k : κ) :
    lookup? k xs = lookup? k ys := by
  rw [lookup?, lookup?, find?_perm h hp]

theorem lookup?_cons_self (k : κ) (v : ν) (l : List (Entry κ ν)) :
    lookup? k (⟨k, v⟩ :: l) = some v := by
  have hfind : find? Entry.key k (⟨k, v⟩ :: l) = some (⟨k, v⟩ : Entry κ ν) := find?_cons_self
  rw [lookup?, hfind, Option.map_some]

theorem lookup?_append (k : κ) : lookup? k (xs ++ ys) = (lookup? k xs).or (lookup? k ys) := by
  rw [lookup?, lookup?, lookup?, find?_append, Option.map_or]

theorem lookup?_eq_none_iff : lookup? k l = none ↔ k ∉ keys l := by
  rw [lookup?, Option.map_eq_none_iff, find?_eq_none_iff, keys, List.mem_map]
  constructor
  · rintro h ⟨e, he, hk⟩
    exact h e he hk
  · intro h e he hk
    exact h ⟨e, he, hk⟩

theorem lookup?_ne_none_iff : lookup? k l ≠ none ↔ k ∈ keys l := by
  rw [ne_eq, lookup?_eq_none_iff, not_not]

theorem exists_lookup?_eq_some (hk : k ∈ keys l) : ∃ v, lookup? k l = some v :=
  Option.ne_none_iff_exists'.1 (lookup?_ne_none_iff.2 hk)

/-! ## Coming and going -/

theorem erase_eq_self_of_not_mem (h : k ∉ keys l) : erase Entry.key k l = l := by
  apply erase_eq_self
  intro e he hk
  exact h (hk ▸ List.mem_map_of_mem he)

theorem erase_perm (hp : xs.Perm ys) (k : κ) : (erase Entry.key k xs).Perm (erase Entry.key k ys) :=
  hp.filter _

theorem length_erase_le (k : κ) (l : List (Entry κ ν)) : (erase Entry.key k l).length ≤ l.length :=
  List.length_filter_le ..

theorem distinct_insert (h : Distinct Entry.key l) (k : κ) (v : ν) :
    Distinct Entry.key (⟨k, v⟩ :: erase Entry.key k l) := by
  refine distinct_cons_iff.2 ⟨?_, h.sublist erase_sublist⟩
  intro e he
  exact (mem_erase_iff.1 he).2

/-- A key that is bound stands at one place, with its value. -/
theorem perm_of_lookup? (h : Distinct Entry.key l) (hk : lookup? k l = some v) :
    l.Perm (⟨k, v⟩ :: erase Entry.key k l) := by
  obtain ⟨⟨k', v'⟩, hfind, rfl⟩ := Option.map_eq_some_iff.1 hk
  obtain ⟨hmem, rfl⟩ := mem_of_find?_eq_some hfind
  exact perm_cons_erase h hmem

theorem length_erase_of_lookup? (h : Distinct Entry.key l) (hk : lookup? k l = some v) :
    (erase Entry.key k l).length + 1 = l.length :=
  (perm_of_lookup? h hk).length_eq.symm

theorem keys_erase (k : κ) (l : List (Entry κ ν)) :
    keys (erase Entry.key k l) = (keys l).filter (· ≠ k) := by
  simp [keys, erase, List.filter_map, Function.comp_def]

theorem mem_keys_erase : k' ∈ keys (erase Entry.key k l) ↔ k' ∈ keys l ∧ k' ≠ k := by
  rw [keys_erase, List.mem_filter, decide_eq_true_iff]

theorem mem_keys_insert (hp : xs.Perm (⟨k, v⟩ :: erase Entry.key k ys)) :
    k' ∈ keys xs ↔ k' = k ∨ k' ∈ keys ys := by
  rw [mem_keys_perm hp, keys, List.map_cons, List.mem_cons]
  show k' = k ∨ k' ∈ keys (erase Entry.key k ys) ↔ _
  rw [mem_keys_erase]
  by_cases hk : k' = k
  · simp [hk]
  · simp [hk]

/-- A binding fits in if the key is bound already, or if there is room. -/
theorem length_insert_le {n : Nat} (h : Distinct Entry.key l) (hle : l.length ≤ n)
    (hroom : k ∈ keys l ∨ l.length < n) (v : ν) :
    (⟨k, v⟩ :: erase Entry.key k l).length ≤ n := by
  rw [List.length_cons]
  by_cases hk : k ∈ keys l
  · obtain ⟨w, hw⟩ := exists_lookup?_eq_some hk
    exact Nat.le_trans (Nat.le_of_eq (length_erase_of_lookup? h hw)) hle
  · rw [erase_eq_self_of_not_mem hk]
    exact hroom.resolve_left hk

/-- When a new entry came and one may have gone that is not the new one, the others are the same as
before. -/
theorem exists_rest_of_perm {gone : Option (Entry κ ν)} (hd : Distinct Entry.key xs)
    (hk : k ∉ keys xs) (hp : (⟨k, v⟩ :: xs).Perm (gone.toList ++ ys)) (hy : k ∈ keys ys) :
    ∃ rest, xs.Perm (gone.toList ++ rest) ∧ ys.Perm (⟨k, v⟩ :: rest) := by
  cases gone with
  | none => exact ⟨xs, .refl _, hp.symm⟩
  | some e =>
    have hdistinct := distinct_insert hd k v
    rw [erase_eq_self_of_not_mem hk] at hdistinct
    -- What went is not the new entry, as the new key is still there.
    have hne : e.key ≠ k := by
      intro heq
      exact not_mem_keys_rest hdistinct hp (heq ▸ hy)
    have hmem : e ∈ xs := by
      rcases List.mem_cons.1 (hp.mem_iff.2 List.mem_cons_self) with heq | hmem
      · exact absurd (congrArg Entry.key heq) hne
      · exact hmem
    have hrest := perm_cons_erase hd hmem
    refine ⟨erase Entry.key e.key xs, hrest, ?_⟩
    refine List.Perm.cons_inv (hp.symm.trans ?_)
    exact (hrest.cons _).trans (.swap ..)

/-! ## Two parts -/

theorem append_insert_left (hx : xs'.Perm (⟨k, v⟩ :: erase Entry.key k xs))
    (hy : ys'.Perm (erase Entry.key k ys)) :
    (xs' ++ ys').Perm (⟨k, v⟩ :: erase Entry.key k (xs ++ ys)) := by
  rw [erase_append]
  exact hx.append hy

theorem append_insert_right (hx : xs'.Perm (erase Entry.key k xs))
    (hy : ys'.Perm (⟨k, v⟩ :: erase Entry.key k ys)) :
    (xs' ++ ys').Perm (⟨k, v⟩ :: erase Entry.key k (xs ++ ys)) := by
  rw [erase_append]
  exact (hx.append hy).trans List.perm_middle

end BoundedCache
