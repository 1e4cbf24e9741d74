import BoundedCache.Proofs.Store.Joined
import BoundedCache.Proofs.Store.Simulation
import Mathlib.Logic.Function.Iterate

/-!
# Draining

An eviction looks at a state that the evictions before it have changed. If each of them drops the
head of a list and leaves the rest of it to be dropped, then the list tells the whole drain in
advance.

## Main definitions

- `Store.EvictsInOrder` — evictions take the entries in the order of a list that a state stands for
- `Store.Lists` — a state in order, and the list of its entries
- `Store.InTurn` — the list of one store, and then that of another one
- `Store.evictedTimes` — the state after a number of evictions
- `Store.Exhausts` — evictions until one of them finds nothing
- `Store.Drains` — a list is what a drain drops

## Main results

- `Store.EvictsInOrder.drains` — what is evicted in order is drained in that order
- `Store.EvictsInOrder.of_either` — a store made of two others that give way one after the other
-/

namespace BoundedCache.Store

variable {κ ν σ τ : Type} [Store σ κ ν] [Store τ κ ν]

/-! ## The order of evictions -/

/-- Each eviction drops the head of the list that a state stands for, and leaves the rest of it.
What was evicted makes no difference once everything is cleared. -/
structure EvictsInOrder (holds : σ → List (Entry κ ν) → Prop) : Prop where
  size_eq : ∀ {s l}, holds s l → size s = l.length
  evict : ∀ {s l}, holds s l → Matches holds (evict s) (dropHead l)
  clear_evict : ∀ {s l}, holds s l → clear (Store.evict s).2 = clear s

/-- The state is in order, and these are its entries. -/
def Lists (Inv : σ → Prop) (s : σ) (l : List (Entry κ ν)) : Prop := Inv s ∧ entries s = l

/-- The list of one store, and then that of another one. -/
def InTurn (H : σ → List (Entry κ ν) → Prop) (J : τ → List (Entry κ ν) → Prop) (s : σ) (t : τ)
    (l : List (Entry κ ν)) : Prop :=
  ∃ ls lt, H s ls ∧ J t lt ∧ ls ++ lt = l

theorem EvictsInOrder.of_lawful [DecidableEq κ] {Inv : σ → Prop} (hlaw : Lawful Inv)
    (hevict : ∀ {s}, Inv s → (Store.evict s).1 = (entries s).head? ∧
      entries (Store.evict s).2 = (entries s).tail)
    (hclear : ∀ {s}, Inv s → clear (Store.evict s).2 = clear s) : EvictsInOrder (Lists Inv) where
  size_eq := by
    rintro s _ ⟨h, rfl⟩
    exact hlaw.size_eq h
  evict := by
    rintro s _ ⟨h, rfl⟩
    obtain ⟨hhead, htail⟩ := hevict h
    obtain ⟨_, -, hholds⟩ := (hlaw.evict h).exists_rest
    exact ⟨hhead, hholds.inv, htail⟩
  clear_evict := by
    rintro s _ ⟨h, rfl⟩
    exact hclear h

/-! ## Drains -/

/-- The state after a number of evictions. -/
def evictedTimes (n : Nat) (s : σ) : σ := (fun t => (evict t).2)^[n] s

/-- Evictions until one of them finds nothing, with what they drop. Nothing bounds their number. -/
inductive Exhausts : σ → List (Entry κ ν) → σ → Prop
  | stop {s t : σ} (h : Store.evict s = (none, t)) : Exhausts s [] t
  | step {s t u : σ} {e : Entry κ ν} {l : List (Entry κ ν)} (h : Store.evict s = (some e, t))
    (hrest : Exhausts t l u) : Exhausts s (e :: l) u

/-- A list is what a drain drops: it has one element for each entry, every eviction drops the next
one and there is none after them, so that evictions come to an end by themselves. A drain drops them
all and leaves what a clear leaves, then or at once. -/
structure Drains (s : σ) (order : List (Entry κ ν)) : Prop where
  length_eq : order.length = size s
  evict_eq : ∀ n, (evict (evictedTimes n s)).1 = order[n]?
  exhausts : ∃ t, Exhausts s order t ∧ clear t = clear s
  drain_eq : drain s = (order, clear s)

namespace EvictsInOrder

variable {holds : σ → List (Entry κ ν) → Prop} {s : σ} {l : List (Entry κ ν)}

theorem evictedTimes (h : EvictsInOrder holds) (hs : holds s l) (n : Nat) :
    holds (evictedTimes n s) (l.drop n) := by
  induction n generalizing s l with
  | zero => exact hs
  | succ n ih =>
    have hnext := ih (h.evict hs).related
    rw [Store.evictedTimes, Function.iterate_succ_apply, ← List.drop_tail]
    exact hnext

/-- A number of evictions drops that many entries from the front of the list. -/
theorem evictMany (h : EvictsInOrder holds) (hs : holds s l) (n : Nat) :
    Matches holds (BoundedCache.evictMany Store.evict n s) (l.take n, l.drop n) :=
  evictMany_eq_take (fun _ _ => h.evict) hs n

/-- Evictions come to an end when the list does. -/
theorem exhausts (h : EvictsInOrder holds) (hs : holds s l) :
    ∃ t, Exhausts s l t ∧ clear t = clear s := by
  induction l generalizing s with
  | nil => exact ⟨_, .stop (Prod.ext (h.evict hs).fst_eq rfl), h.clear_evict hs⟩
  | cons e l ih =>
    obtain ⟨hhead, hrest⟩ := h.evict hs
    obtain ⟨t, ht, hclear⟩ := ih hrest
    exact ⟨t, .step (Prod.ext hhead rfl) ht, hclear.trans (h.clear_evict hs)⟩

/-- What is evicted in order is drained in that order. -/
theorem drains (h : EvictsInOrder holds) (hs : holds s l) : Drains s l where
  length_eq := (h.size_eq hs).symm
  evict_eq n := by
    rw [(h.evict (h.evictedTimes hs n)).fst_eq]
    simp [dropHead]
  exhausts := h.exhausts hs
  drain_eq := by
    let rest (t : σ) (l : List (Entry κ ν)) : Prop := holds t l ∧ clear t = clear s
    have hevict : ∀ t l, rest t l → Matches rest (Store.evict t) (dropHead l) := by
      rintro t l ⟨ht, hclear⟩
      obtain ⟨hhead, htail⟩ := h.evict ht
      exact ⟨hhead, htail, (h.clear_evict ht).trans hclear⟩
    obtain ⟨hdropped, -, hclear⟩ := evictMany_eq_take hevict ⟨hs, rfl⟩ (size s)
    have hall : l.take (size s) = l := by rw [h.size_eq hs, List.take_length]
    rw [Store.drain_eq]
    exact Prod.ext (hdropped.trans hall) hclear

/-! ## Two stores in turn -/

variable {ρ : Type} [Store ρ κ ν] {H : σ → List (Entry κ ν) → Prop}
  {J : τ → List (Entry κ ν) → Prop}

/-- Of two stores, the second one gives way when the first one has nothing left. -/
theorem either (hH : EvictsInOrder H) (hJ : EvictsInOrder J) {s : σ} {t : τ}
    (h : InTurn H J s t l) :
    let p := evictEither s t
    p.1 = l.head? ∧ InTurn H J p.2.1 p.2.2 l.tail ∧
      clear p.2.1 = clear s ∧ clear p.2.2 = clear t := by
  obtain ⟨ls, lt, hs, ht, rfl⟩ := h
  obtain ⟨hhead, htail⟩ := hH.evict hs
  obtain ⟨hhead', htail'⟩ := hJ.evict ht
  cases ls with
  | nil =>
    have hevict : Store.evict s = (none, (Store.evict s).2) := Prod.ext hhead rfl
    rw [evictEither, hevict]
    exact ⟨hhead', ⟨[], lt.tail, htail, htail', rfl⟩, hH.clear_evict hs, hJ.clear_evict ht⟩
  | cons e ls =>
    have hevict : Store.evict s = (some e, (Store.evict s).2) := Prod.ext hhead rfl
    rw [evictEither, hevict]
    exact ⟨rfl, ⟨ls, lt, htail, ht, rfl⟩, hH.clear_evict hs, rfl⟩

/-- A store that is made of two others, and evicts from the first of them before the second. -/
theorem of_either (hH : EvictsInOrder H) (hJ : EvictsInOrder J) {first : ρ → σ} {second : ρ → τ}
    (hsize : ∀ r, size r = size (first r) + size (second r))
    (hevict : ∀ r,
      let p := evictEither (first r) (second r)
      (Store.evict r).1 = p.1 ∧ first (Store.evict r).2 = p.2.1 ∧ second (Store.evict r).2 = p.2.2)
    (hclear : ∀ r, clear (first (Store.evict r).2) = clear (first r) →
      clear (second (Store.evict r).2) = clear (second r) → clear (Store.evict r).2 = clear r) :
    EvictsInOrder fun r => InTurn H J (first r) (second r) where
  size_eq {r _} h := by
    obtain ⟨ls, lt, hs, ht, rfl⟩ := h
    rw [hsize, hH.size_eq hs, hJ.size_eq ht, List.length_append]
  evict {r _} h := by
    obtain ⟨hhead, htail, -⟩ := hH.either hJ h
    obtain ⟨hfst, hfirst, hsecond⟩ := hevict r
    rw [← hfst] at hhead
    rw [← hfirst, ← hsecond] at htail
    exact ⟨hhead, htail⟩
  clear_evict {r _} h := by
    obtain ⟨-, -, hs, ht⟩ := hH.either hJ h
    obtain ⟨-, hfirst, hsecond⟩ := hevict r
    rw [← hfirst] at hs
    rw [← hsecond] at ht
    exact hclear r hs ht

end EvictsInOrder

end BoundedCache.Store
