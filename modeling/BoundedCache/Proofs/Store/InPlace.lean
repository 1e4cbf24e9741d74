import BoundedCache.Proofs.Error
import BoundedCache.Proofs.Store.Lawful

/-!
# Changes made step by step

A resize tells what it drops and gives the store it leaves, or else gives an error and nothing with
it. A change made in place has no such choice: by the time that one of its steps is refused, earlier
ones may have dropped entries and rearranged the store, and that is not taken back. Here a change is
run that way, so that it can be asked whether a refusal ever comes too late.

## Main definitions

- `InPlace` — a change that keeps what it did when one of its steps is refused
- `InPlace.read`, `InPlace.require`, `InPlace.drop`, `InPlace.change`, `InPlace.inside` — its steps
- `InPlace.Commits` — the change is made as a whole, or nothing is changed

## Main results

- `InPlace.Commits.require_bind` — a check ahead of all other steps may be refused
- `InPlace.Commits.evictDown_bind` — what comes after an eviction may not
- `InPlace.inside_bind` — a step that changes a part of the store, and goes through
-/

namespace BoundedCache

/-- A change that is made to a store step by step. It goes on from the entries dropped before and
the store as it is by then, to whether it went through, the entries dropped so far, and the
store. -/
def InPlace (σ ε α : Type) : Type := List ε × σ → Except SetupError α × List ε × σ

namespace InPlace

variable {σ τ ε δ α β : Type}

/-- The first step that is refused ends a change, and what was done by then stays done. -/
instance : Monad (InPlace σ ε) where
  pure a := fun p => (.ok a, p)
  bind x f := fun p =>
    match x p with
    | (.ok a, q) => f a q
    | (.error cause, q) => (.error cause, q)

/-- A change made to a store of which nothing was dropped yet. -/
def run (x : InPlace σ ε α) (s : σ) : Except SetupError α × List ε × σ := x ([], s)

/-! ## Steps -/

/-- Looks at the store. -/
def read : InPlace σ ε σ := fun p => (.ok p.2, p)

/-- Makes a check. -/
def require (check : Except SetupError α) : InPlace σ ε α := fun p => (check, p)

/-- Drops entries, and tells them. -/
def drop (f : σ → List ε × σ) : InPlace σ ε Unit :=
  fun p => (.ok (), p.1 ++ (f p.2).1, (f p.2).2)

/-- Evicts entries until no more than a number of them are left. -/
def evictDown {κ ν : Type} [Store σ κ ν] (n : Nat) : InPlace σ (Entry κ ν) Unit :=
  drop fun s => evictMany Store.evict (Store.size s - n) s

/-- Changes the store without telling anything. -/
def change (f : σ → σ) : InPlace σ ε Unit := fun p => (.ok (), p.1, f p.2)

/-- Makes a change to a part of the store. Nobody is told what the part drops. -/
def inside (part : σ → τ) (withPart : σ → τ → σ) (x : InPlace τ δ Unit) : InPlace σ ε Unit :=
  fun p => ((x.run (part p.2)).1, p.1, withPart p.2 (x.run (part p.2)).2.2)

/-! ## Runs -/

variable {p q : List ε × σ}

theorem bind_of_ok {x : InPlace σ ε α} {f : α → InPlace σ ε β} {a : α} (hx : x p = (.ok a, q)) :
    (x >>= f) p = f a q := by
  simp only [bind, hx]

theorem bind_of_error {x : InPlace σ ε α} {f : α → InPlace σ ε β} {cause : SetupError}
    (hx : x p = (.error cause, q)) : (x >>= f) p = (.error cause, q) := by
  simp only [bind, hx]

theorem drop_bind (g : σ → List ε × σ) (f : Unit → InPlace σ ε α) :
    (drop g >>= f) p = f () (p.1 ++ (g p.2).1, (g p.2).2) := rfl

theorem change_bind (g : σ → σ) (f : Unit → InPlace σ ε α) :
    (change g >>= f) p = f () (p.1, g p.2) := rfl

/-! ## All or nothing -/

/-- A change that has a certain outcome, and if that is a refusal, then no entry is dropped, and the
store is the one that there was. -/
def allOrNothing (s : σ) : Except SetupError (List ε × σ) → Except SetupError Unit × List ε × σ
  | .ok (dropped, t) => (.ok (), dropped, t)
  | .error cause => (.error cause, [], s)

/-- The steps of a change have a certain outcome as a whole, or none of them does anything. -/
def Commits (x : InPlace σ ε Unit) (s : σ) (outcome : Except SetupError (List ε × σ)) : Prop :=
  x.run s = allOrNothing s outcome

variable {s : σ} {outcome : Except SetupError (List ε × σ)}

/-- The store may be part of something else, which is then changed as a whole as well. -/
theorem map_allOrNothing (f : σ → τ) :
    (allOrNothing s outcome).map id (.map id f) =
      allOrNothing (f s) (outcome.map (·.map id f)) := by
  rcases outcome with cause | ⟨dropped, t⟩
  · rfl
  · rfl

theorem evictDown_commits {κ ν : Type} [Store σ κ ν] (s : σ) (n : Nat) :
    (evictDown n).Commits s (.ok (evictMany Store.evict (Store.size s - n) s)) := rfl

/-- A change is the one that is made to the store that it finds. -/
theorem Commits.read_bind {f : σ → InPlace σ ε Unit} (h : (f s).Commits s outcome) :
    (read >>= f).Commits s outcome := h

/-- Nothing was done yet when a check at the start is refused. -/
theorem Commits.require_bind {check : Except SetupError α} {f : α → InPlace σ ε Unit}
    {g : α → Except SetupError (List ε × σ)}
    (h : ∀ a, check = .ok a → (f a).Commits s (g a)) :
    (require check >>= f).Commits s (check >>= g) := by
  rcases check with cause | a
  · exact bind_of_error rfl
  · exact h a rfl

/-- Once something was evicted, every step that follows has to go through. -/
theorem Commits.evictDown_bind {κ ν : Type} [DecidableEq κ] [Store σ κ ν] {Inv : σ → Prop}
    (hlaw : Store.Lawful Inv) (h : Inv s) {n : Nat} {f : Unit → InPlace σ (Entry κ ν) Unit}
    {outcome : Except SetupError (List (Entry κ ν) × σ)}
    (hrest : ∀ dropped t, evictMany Store.evict (Store.size s - n) s = (dropped, t) → Inv t →
      Store.size t ≤ n → ∃ u, outcome = .ok u ∧ f () (dropped, t) = (.ok (), u)) :
    (evictDown n >>= f).Commits s outcome := by
  obtain ⟨_, -, ht, hfits⟩ := Store.evictMany_excess_of_evicts hlaw.size_eq hlaw.evict h n
  rcases hevicted : evictMany Store.evict (Store.size s - n) s with ⟨dropped, t⟩
  rw [hevicted] at ht hfits
  obtain ⟨u, rfl, hrun⟩ := hrest dropped t hevicted ht.inv hfits
  show (evictDown n >>= f) ([], s) = _
  rw [evictDown, drop_bind, hevicted]
  exact hrun

/-- A change to a part of the store that goes through. -/
theorem inside_bind {x : InPlace τ δ Unit} {part : σ → τ} {withPart : σ → τ → σ}
    {f : Unit → InPlace σ ε α} {told : List ε} {dropped : List δ} {t : τ}
    {outcome : Except SetupError (List δ × τ)} {result : Except SetupError α × List ε × σ}
    (hx : x.Commits (part s) outcome) (houtcome : outcome = .ok (dropped, t))
    (hf : f () (told, withPart s t) = result) :
    (inside part withPart x >>= f) (told, s) = result := by
  rw [Commits, houtcome] at hx
  rw [← hf]
  refine bind_of_ok ?_
  rw [inside, hx]
  rfl

end InPlace

end BoundedCache
