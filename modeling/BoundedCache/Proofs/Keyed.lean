import Mathlib.Data.List.Nodup

/-!
# Lists with distinct keys

The abstract counterpart of both chains and stores is a list whose elements carry a key: slots for a
chain, the keys of the cache for a store. This file collects what the operations on such a list do
to an element in a known place.

## Main definitions

- `Keyed.Distinct` — no key occurs twice
- `Keyed.find?`, `Keyed.erase`, `Keyed.modify` — read, drop or change the element with a key
- `Keyed.insertAhead` — adds an element directly ahead of the one with a key

## Design notes

The key is a parameter, so one statement serves pairs of a slot and a value, entries, and entries
with a count. `erase` is a filter: it commutes with `map`, `append` and `reverse` without any
assumption on the list.
-/

namespace BoundedCache.Keyed

variable {α β κ : Type} (key : α → κ)

/-- No key occurs twice. -/
def Distinct (l : List α) : Prop := (l.map key).Nodup

section Operations

variable [DecidableEq κ]

/-- The first element with a key. -/
def find? (k : κ) (l : List α) : Option α := l.find? fun x => key x = k

/-- The elements with another key. -/
def erase (k : κ) (l : List α) : List α := l.filter fun x => key x ≠ k

/-- Changes the elements with a key. -/
def modify (k : κ) (f : α → α) (l : List α) : List α :=
  l.map fun x => if key x = k then f x else x

/-- Adds an element directly ahead of the first one with a key, or at the end if there is none. -/
def insertAhead (k : κ) (new : α) : List α → List α
  | [] => [new]
  | x :: l => if key x = k then new :: x :: l else x :: insertAhead k new l

end Operations

variable {key} {k : κ} {l : List α} {x : α} {xs ys : List α}

/-! ## Elements at a place -/

theorem forall_mem_replace {p : α → Prop} {y : α} (h : ∀ z ∈ xs ++ x :: ys, p z) (hy : p y) :
    ∀ z ∈ xs ++ y :: ys, p z := by
  rw [List.forall_mem_append, List.forall_mem_cons] at h ⊢
  exact ⟨h.1, hy, h.2.2⟩

theorem forall_mem_remove {p : α → Prop} (h : ∀ z ∈ xs ++ x :: ys, p z) :
    ∀ z ∈ xs ++ ys, p z := by
  rw [List.forall_mem_append, List.forall_mem_cons] at h
  rw [List.forall_mem_append]
  exact ⟨h.1, h.2.2⟩

/-! ## Distinct keys -/

theorem Distinct.sublist (h : Distinct key ys) (hs : xs.Sublist ys) : Distinct key xs :=
  List.Nodup.sublist (hs.map key) h

theorem Distinct.perm (h : Distinct key xs) (hp : xs.Perm ys) : Distinct key ys :=
  (hp.map key).nodup_iff.1 h

theorem distinct_cons_iff :
    Distinct key (x :: l) ↔ (∀ y ∈ l, key y ≠ key x) ∧ Distinct key l := by
  simp [Distinct, List.nodup_cons, List.mem_map]

theorem distinct_append_iff :
    Distinct key (xs ++ ys) ↔
      Distinct key xs ∧ Distinct key ys ∧ ∀ x ∈ xs, ∀ y ∈ ys, key x ≠ key y := by
  simp [Distinct, List.nodup_append]

/-- An element may change its place. -/
theorem distinct_append_cons_iff :
    Distinct key (xs ++ x :: ys) ↔ Distinct key (x :: (xs ++ ys)) :=
  ⟨fun h => h.perm List.perm_middle, fun h => h.perm List.perm_middle.symm⟩

theorem Distinct.ne_of_append_cons (h : Distinct key (xs ++ x :: ys)) :
    ∀ y ∈ xs ++ ys, key y ≠ key x :=
  (distinct_cons_iff.1 (distinct_append_cons_iff.1 h)).1

/-- The keys before and after an element differ from its own. -/
theorem Distinct.ne_of_split (h : Distinct key (xs ++ x :: ys)) :
    (∀ y ∈ xs, key y ≠ key x) ∧ ∀ y ∈ ys, key y ≠ key x :=
  ⟨fun y hy => h.ne_of_append_cons y (List.mem_append_left _ hy),
    fun y hy => h.ne_of_append_cons y (List.mem_append_right _ hy)⟩

/-- A key marks one place of the list only. -/
theorem Distinct.append_cons_inj {y : α} {as bs : List α} (h : Distinct key (xs ++ x :: ys))
    (heq : xs ++ x :: ys = as ++ y :: bs) (hkey : key x = key y) : xs = as ∧ x = y ∧ ys = bs := by
  induction xs generalizing as with
  | nil =>
    cases as with
    | nil => exact ⟨rfl, List.cons.inj heq⟩
    | cons a as =>
      obtain ⟨rfl, rfl⟩ := List.cons.inj heq
      exact absurd hkey.symm (h.ne_of_append_cons y (by simp))
  | cons z xs ih =>
    cases as with
    | nil =>
      obtain ⟨rfl, -⟩ := List.cons.inj heq
      exact absurd hkey.symm (h.ne_of_append_cons z (by simp))
    | cons a as =>
      obtain ⟨rfl, htail⟩ := List.cons.inj heq
      obtain ⟨rfl, hrest⟩ := ih (distinct_cons_iff.1 h).2 htail
      exact ⟨rfl, hrest⟩

variable [DecidableEq κ]

/-! ## Looking for a key -/

theorem find?_eq_none_iff : find? key k l = none ↔ ∀ x ∈ l, key x ≠ k := by
  simp [find?, List.find?_eq_none]

theorem find?_eq_none_of_sublist (h : find? key k ys = none) (hs : xs.Sublist ys) :
    find? key k xs = none :=
  find?_eq_none_iff.2 fun x hx => find?_eq_none_iff.1 h x (hs.subset hx)

theorem mem_of_find?_eq_some (h : find? key k l = some x) : x ∈ l ∧ key x = k :=
  ⟨List.mem_of_find?_eq_some h, by simpa using List.find?_some h⟩

theorem find?_append :
    find? key k (xs ++ ys) = (find? key k xs).or (find? key k ys) :=
  List.find?_append

theorem find?_cons_self : find? key (key x) (x :: l) = some x :=
  List.find?_cons_of_pos (by simp)

theorem find?_cons_of_ne (h : key x ≠ k) : find? key k (x :: l) = find? key k l :=
  List.find?_cons_of_neg (by simpa using h)

theorem find?_append_cons (h : Distinct key (xs ++ x :: ys)) :
    find? key (key x) (xs ++ x :: ys) = some x := by
  rw [find?_append, find?_eq_none_iff.2 h.ne_of_split.1, Option.none_or, find?_cons_self]

theorem find?_eq_some_iff (h : Distinct key l) : find? key k l = some x ↔ x ∈ l ∧ key x = k := by
  refine ⟨mem_of_find?_eq_some, ?_⟩
  rintro ⟨hx, rfl⟩
  obtain ⟨xs, ys, rfl⟩ := List.append_of_mem hx
  exact find?_append_cons h

/-- The place of the element with a key. -/
theorem exists_split_of_find?_eq_some (h : find? key k l = some x) :
    ∃ xs ys, l = xs ++ x :: ys ∧ key x = k := by
  obtain ⟨hx, hk⟩ := mem_of_find?_eq_some h
  obtain ⟨xs, ys, hl⟩ := List.append_of_mem hx
  exact ⟨xs, ys, hl, hk⟩

/-- Looking for a key does not depend on the order of the list. -/
theorem find?_perm (h : Distinct key xs) (hp : xs.Perm ys) : find? key k xs = find? key k ys := by
  apply Option.ext
  intro x
  rw [find?_eq_some_iff h, find?_eq_some_iff (h.perm hp), hp.mem_iff]

theorem find?_map {key' : β → κ} {g : β → α} (hg : ∀ y, key (g y) = key' y) (m : List β) :
    find? key k (m.map g) = (find? key' k m).map g := by
  rw [find?, find?, List.find?_map]
  simp only [Function.comp_def, hg]

/-! ## Dropping a key -/

theorem mem_erase_iff : x ∈ erase key k l ↔ x ∈ l ∧ key x ≠ k := by
  simp [erase]

theorem erase_sublist : (erase key k l).Sublist l :=
  List.filter_sublist

theorem erase_eq_self (h : ∀ x ∈ l, key x ≠ k) : erase key k l = l := by
  simpa [erase, List.filter_eq_self] using h

theorem erase_cons_self : erase key (key x) (x :: l) = erase key (key x) l :=
  List.filter_cons_of_neg (by simp)

theorem erase_append : erase key k (xs ++ ys) = erase key k xs ++ erase key k ys :=
  List.filter_append ..

theorem erase_reverse : erase key k l.reverse = (erase key k l).reverse :=
  List.filter_reverse ..

theorem erase_append_cons (h : Distinct key (xs ++ x :: ys)) :
    erase key (key x) (xs ++ x :: ys) = xs ++ ys := by
  obtain ⟨hxs, hys⟩ := h.ne_of_split
  rw [erase_append, erase_eq_self hxs]
  rw [erase_cons_self, erase_eq_self hys]

theorem erase_map {key' : β → κ} {g : β → α} (hg : ∀ y, key (g y) = key' y) (m : List β) :
    erase key k (m.map g) = (erase key' k m).map g := by
  simp [erase, List.filter_map, Function.comp_def, hg]

theorem erase_erase : erase key k (erase key k l) = erase key k l :=
  erase_eq_self fun _ hx => (mem_erase_iff.1 hx).2

theorem find?_erase (k' : κ) :
    find? key k' (erase key k l) = if k' = k then none else find? key k' l := by
  split
  · next h =>
    subst h
    exact find?_eq_none_iff.2 fun x hx => (mem_erase_iff.1 hx).2
  · next h =>
    rw [find?, find?, erase, List.find?_filter]
    congr 1
    funext x
    by_cases hx : key x = k'
    · simp [hx, h]
    · simp [hx]

/-- The element with a key, ahead of all others. -/
theorem perm_cons_erase (h : Distinct key l) (hx : x ∈ l) :
    l.Perm (x :: erase key (key x) l) := by
  obtain ⟨xs, ys, rfl⟩ := List.append_of_mem hx
  rw [erase_append_cons h]
  exact List.perm_middle

/-! ## Changing the element with a key -/

theorem modify_eq_self {f : α → α} (h : ∀ x ∈ l, key x ≠ k) : modify key k f l = l := by
  rw [modify]
  conv_rhs => rw [← List.map_id l]
  refine List.map_congr_left fun x hx => ?_
  rw [if_neg (h x hx), id]

theorem modify_append_cons {f : α → α} (h : Distinct key (xs ++ x :: ys)) :
    modify key (key x) f (xs ++ x :: ys) = xs ++ f x :: ys := by
  obtain ⟨hxs, hys⟩ := h.ne_of_split
  have hl := modify_eq_self (f := f) hxs
  have hr := modify_eq_self (f := f) hys
  rw [modify] at hl hr ⊢
  rw [List.map_append, List.map_cons, hl, hr, if_pos rfl]

theorem modify_cons_self {f : α → α} (h : Distinct key (x :: l)) :
    modify key (key x) f (x :: l) = f x :: l := by
  have hnil : Distinct key ([] ++ x :: l) := h
  exact modify_append_cons hnil

/-! ## Inserting ahead of a key -/

theorem insertAhead_of_forall_ne (h : ∀ y ∈ l, key y ≠ k) : insertAhead key k x l = l ++ [x] := by
  induction l with
  | nil => rfl
  | cons y l ih =>
    rw [List.forall_mem_cons] at h
    rw [insertAhead, if_neg h.1, ih h.2, List.cons_append]

theorem insertAhead_append_cons {y : α} (h : Distinct key (xs ++ y :: ys)) :
    insertAhead key (key y) x (xs ++ y :: ys) = xs ++ x :: y :: ys := by
  have hxs := h.ne_of_split.1
  clear h
  induction xs with
  | nil => simp [insertAhead]
  | cons z xs ih =>
    rw [List.forall_mem_cons] at hxs
    rw [List.cons_append, insertAhead, if_neg hxs.1, ih hxs.2, List.cons_append]

theorem insertAhead_perm (k : κ) (x : α) (l : List α) : (insertAhead key k x l).Perm (x :: l) := by
  induction l with
  | nil => exact .refl _
  | cons y l ih =>
    rw [insertAhead]
    split
    · exact .refl _
    · exact (ih.cons y).trans (.swap x y l)

theorem erase_insertAhead_self :
    erase key (key x) (insertAhead key k x l) = erase key (key x) l := by
  induction l with
  | nil => exact erase_cons_self
  | cons y l ih =>
    rw [insertAhead]
    split
    · exact erase_cons_self
    · rw [← List.singleton_append, erase_append, ih, ← erase_append, List.singleton_append]

end BoundedCache.Keyed
