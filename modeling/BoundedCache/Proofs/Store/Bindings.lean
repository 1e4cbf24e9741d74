import BoundedCache.Proofs.Store.Lawful
import BoundedCache.Store.Request

/-!
# Requests account for every binding

A request may add, change and drop bindings. Whatever it drops it tells, unless it was asked to
drop just that, and it leaves all other bindings alone.

## Main definitions

- `Store.InBounds` — no key is bound twice, and there are no more entries than fit
- `Store.Accounts` — what each request tells, and what it leaves

## Main results

- `Store.Lawful.accounts` — the requests of a lawful store account for every binding
-/

namespace BoundedCache

open Keyed

variable {κ ν σ : Type} [Store σ κ ν]

namespace Store

/-- No key is bound twice, the entries are counted, and there are no more of them than fit. -/
structure InBounds (s : σ) : Prop where
  distinct : Distinct Entry.key (entries s)
  size_eq : size s = (entries s).length
  size_le : size s ≤ capacity s

variable [DecidableEq κ]

/-- What a request to a store `s` tells, and what the state `t` after it lists. -/
def Accounts (s : σ) (request : Request κ ν) (outcome : Outcome κ ν) (t : σ) : Prop :=
  match request with
  | .put key value => ∃ displaced rest,
      outcome = .evicting (.entry displaced) displaced.toList ∧
      (entries s).Perm (displaced.toList ++ rest) ∧
      Holds InBounds (capacity s) (⟨key, value⟩ :: erase Entry.key key rest) t ∧
      -- An entry goes only for a key that is new, and only if there is no room.
      (displaced.isSome ↔ lookup? key (entries s) = none ∧ size s = capacity s)
  | .get key =>
      outcome = .lookup (lookup? key (entries s)) ∧ Holds InBounds (capacity s) (entries s) t
  | .peek key => outcome = { reply := .value (lookup? key (entries s)) } ∧ t = s
  | .contains key => outcome = { reply := .found (lookup? key (entries s)).isSome } ∧ t = s
  | .remove key =>
      outcome = { reply := .value (lookup? key (entries s)) } ∧
      Holds InBounds (capacity s) (erase Entry.key key (entries s)) t
  | .evict => ∃ dropped rest,
      outcome = .evicting (.entry dropped) dropped.toList ∧
      (entries s).Perm (dropped.toList ++ rest) ∧ Holds InBounds (capacity s) rest t ∧
      (dropped = none ↔ entries s = [])
  | .clear => outcome = { reply := .done } ∧ Holds InBounds (capacity s) [] t
  | .drain => ∃ dropped,
      outcome = .evicting .done dropped ∧ (entries s).Perm dropped ∧
      Holds InBounds (capacity s) [] t
  | .resize n =>
      (∃ dropped rest, outcome = .evicting .done dropped ∧
        (entries s).Perm (dropped ++ rest) ∧ Holds InBounds n rest t) ∨
      -- A refused request changes nothing.
      ∃ cause, outcome = { reply := .refused cause } ∧ t = s

namespace Lawful

variable {Inv : σ → Prop} {s : σ}

theorem inBounds (hlaw : Lawful Inv) (h : Inv s) : InBounds s :=
  ⟨hlaw.distinct h, hlaw.size_eq h, hlaw.size_le h⟩

/-- The requests of a lawful store account for every binding. -/
theorem accounts (hlaw : Lawful Inv) (h : Inv s) (request : Request κ ν) :
    Accounts s request (Store.perform s request).1 (Store.perform s request).2 := by
  have hbounds : ∀ {t : σ}, Inv t → InBounds t := fun ht => hlaw.inBounds ht
  cases request with
  | put key value =>
    obtain ⟨⟨rest, hp, ht⟩, hisSome⟩ := hlaw.put h key value
    rw [Store.perform_put]
    exact ⟨_, rest, rfl, hp, ht.mono hbounds, hisSome⟩
  | get key =>
    obtain ⟨hvalue, ht⟩ := hlaw.get h key
    rw [hlaw.perform_get h]
    exact ⟨congrArg Outcome.lookup hvalue, ht.mono hbounds⟩
  | peek key =>
    refine ⟨?_, rfl⟩
    rw [Store.perform, hlaw.peek_eq h]
  | contains key =>
    refine ⟨?_, rfl⟩
    rw [Store.perform, hlaw.contains_eq h]
  | remove key =>
    obtain ⟨hvalue, ht⟩ := hlaw.remove h key
    refine ⟨?_, ht.mono hbounds⟩
    rw [← hvalue]
    rfl
  | evict =>
    obtain ⟨⟨rest, hp, ht⟩, hnone⟩ := hlaw.evict h
    rw [Store.perform_evict]
    exact ⟨_, rest, rfl, hp, ht.mono hbounds, hnone⟩
  | clear => exact ⟨rfl, (hlaw.clear h).mono hbounds⟩
  | drain =>
    obtain ⟨hp, ht⟩ := hlaw.drain h
    rw [Store.perform_drain]
    exact ⟨_, rfl, hp, ht.mono hbounds⟩
  | resize n =>
    rw [Store.perform_resize]
    rcases hresize : Store.resize s n with cause | ⟨dropped, t⟩
    · exact .inr ⟨cause, rfl, rfl⟩
    · obtain ⟨rest, hp, ht⟩ := hlaw.resize h n dropped t hresize
      exact .inl ⟨dropped, rest, rfl, hp, ht.mono hbounds⟩

end Lawful

end Store

end BoundedCache
