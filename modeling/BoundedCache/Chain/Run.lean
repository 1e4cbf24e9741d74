import BoundedCache.Chain.Basic

/-!
# Runs of a chain

The operations that change a chain, as values, so that one can speak of every chain that some
sequence of them leads to.

## Main definitions

- `Chain.Command` — one operation with its arguments
- `Chain.Answer` — what an operation tells
- `Chain.perform`, `Chain.performAll` — the effect of one operation, and of a sequence
-/

namespace BoundedCache.Chain

variable {α : Type}

/-- An operation on a chain. Slots are arbitrary: in use, free, or beyond the array. -/
inductive Command (α : Type) where
  | pushFront (value : α)
  | pushBack (value : α)
  | insertBefore (anchor : Slot) (value : α)
  | remove (slot : Slot)
  | popFront
  | popBack
  | moveToFront (slot : Slot)
  | moveBefore (slot anchor : Slot)
  | replace (slot : Slot) (value : α)
  | clear

/-- What an operation tells. -/
inductive Answer (α : Type) where
  /-- The slot of a new value. -/
  | slot (slot : Slot)
  /-- The value taken away or replaced, if there was one. -/
  | value (value : Option α)
  /-- Whether a move was possible. -/
  | moved (success : Bool)
  | done
  deriving DecidableEq

def perform (c : Chain α) : Command α → Answer α × Chain α
  | .pushFront value => (c.pushFront value).map .slot id
  | .pushBack value => (c.pushBack value).map .slot id
  | .insertBefore anchor value => (c.insertBefore anchor value).map .slot id
  | .remove slot => (c.remove slot).map .value id
  | .popFront => c.popFront.map .value id
  | .popBack => c.popBack.map .value id
  | .moveToFront slot => (c.moveToFront slot).map .moved id
  | .moveBefore slot anchor => (c.moveBefore slot anchor).map .moved id
  | .replace slot value => (c.replace slot value).map .value id
  | .clear => (.done, c.clear)

/-- The chain after a sequence of operations. -/
def performAll (c : Chain α) (commands : List (Command α)) : Chain α :=
  commands.foldl (fun c command => (c.perform command).2) c

end BoundedCache.Chain
