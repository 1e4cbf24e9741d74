import BoundedCache.Store.Request

/-!
# Observed stores

A store together with those who watch it: a tally that counts its lookups and evictions, and at most
one listener that is told every evicted entry. Both hear the signals of the store one by one.

## Main definitions

- `Observed` — a store, its tally, and its listener
- `Notice` — what a listener is told
- `Observed.hear`, `Observed.hearAll` — what becomes of the signals of the store
- `Observed.perform` — the effect of an operation, with the notices that it gives rise to
- `Observed.listen`, `Observed.resetTally` — change who watches

## Design notes

Listeners are told apart by a number only. A listener cannot change the store, so what it does with
a notice is of no concern here.
-/

namespace BoundedCache

/-- A store, its tally, and its listener. -/
structure Observed (σ : Type) where
  store : σ
  tally : Tally := {}
  listener : Option Nat := none

/-- An evicted entry, as a listener is told of it. -/
structure Notice (κ ν : Type) where
  listener : Nat
  entry : Entry κ ν
  deriving DecidableEq

namespace Observed

variable {σ κ ν : Type}

/-- What becomes of a signal: it is counted, and the listener, if there is one, is told the entry
that gave way. -/
def hear (o : Observed σ) : Signal κ ν → List (Notice κ ν) × Observed σ
  | .access hit => ([], { o with tally := o.tally.record (if hit then .hit else .miss) })
  | .evicted entry =>
    let notice := match o.listener with
      | none => []
      | some listener => [⟨listener, entry⟩]
    (notice, { o with tally := o.tally.record .eviction })

/-- What becomes of some signals, one after the other. -/
def hearAll (o : Observed σ) : List (Signal κ ν) → List (Notice κ ν) × Observed σ
  | [] => ([], o)
  | signal :: rest =>
    let (notice, o) := o.hear signal
    let (later, o) := hearAll o rest
    (notice ++ later, o)

theorem hearAll_cons (o : Observed σ) (signal : Signal κ ν) (rest : List (Signal κ ν)) :
    o.hearAll (signal :: rest) =
      ((o.hear signal).1 ++ ((o.hear signal).2.hearAll rest).1,
        ((o.hear signal).2.hearAll rest).2) := rfl

/-- The effect of an operation: its reply, and the notices that its signals give rise to. -/
def perform [Store σ κ ν] (o : Observed σ) (request : Request κ ν) :
    (Reply κ ν × List (Notice κ ν)) × Observed σ :=
  let (outcome, store) := Store.perform o.store request
  let (notices, o) := { o with store }.hearAll outcome.signals
  ((outcome.reply, notices), o)

def listen (o : Observed σ) (listener : Nat) : Observed σ :=
  { o with listener := some listener }

def resetTally (o : Observed σ) : Observed σ := { o with tally := {} }

end Observed

end BoundedCache
