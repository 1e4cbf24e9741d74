/-!
# Chains

A chain is a doubly linked list whose nodes live in the slots of an array. A slot number is a handle
to a value: it stays valid, wherever the value moves in the list, until the value is removed, and
may be given to another value after that. All operations but listing and clearing touch a bounded
number of slots.

## Main definitions

- `Chain` — the slots, the free ones among them, and the two ends of the list
- `Chain.pushFront`, `Chain.pushBack`, `Chain.insertBefore` — new values
- `Chain.remove`, `Chain.popFront`, `Chain.popBack`, `Chain.clear` — fewer values
- `Chain.moveToFront`, `Chain.moveBefore` — the same values in another order
- `Chain.toSlots`, `Chain.toList` — the list from the front, with and without handles

## Design notes

`none` takes the place of a node beyond both ends: the front is the node after it, and the back the
node before it. Linking and unlinking thereby need no cases for the ends of the list.
-/

namespace BoundedCache

/-- A handle to a value of a chain. -/
abbrev Slot := Nat

namespace Chain

/-- A value together with its neighbours: `before` is the one toward the front. -/
structure Node (α : Type) where
  value : α
  before : Option Slot := none
  after : Option Slot := none
  deriving DecidableEq

end Chain

/-- A doubly linked list in an array of slots. The slot given out next is the one at the head of
`free`, or a new one when no slot is free. -/
structure Chain (α : Type) where
  slots : Array (Option (Chain.Node α)) := #[]
  free : List Slot := []
  size : Nat := 0
  frontSlot : Option Slot := none
  backSlot : Option Slot := none
  deriving DecidableEq

namespace Chain

variable {α : Type}

def empty : Chain α := {}

instance : EmptyCollection (Chain α) := ⟨empty⟩

instance : Inhabited (Chain α) := ⟨empty⟩

/-! ## Reading -/

/-- The node in a slot, if the slot is in use. -/
def node? (c : Chain α) (i : Slot) : Option (Node α) :=
  c.slots[i]?.getD none

def isLive (c : Chain α) (i : Slot) : Bool :=
  (c.node? i).isSome

def get? (c : Chain α) (i : Slot) : Option α :=
  (c.node? i).map Node.value

/-- The slot of the next value toward the front. -/
def before? (c : Chain α) (i : Slot) : Option Slot :=
  (c.node? i).bind Node.before

/-- The slot of the next value toward the back. -/
def after? (c : Chain α) (i : Slot) : Option Slot :=
  (c.node? i).bind Node.after

def front? (c : Chain α) : Option α :=
  c.frontSlot.bind c.get?

def back? (c : Chain α) : Option α :=
  c.backSlot.bind c.get?

def isEmpty (c : Chain α) : Bool := c.size == 0

/-- The slots and values met when following `step` from a node on, at most `fuel` of them. -/
def walk (c : Chain α) (step : Node α → Option Slot) : Nat → Option Slot → List (Slot × α)
  | 0, _ => []
  | _ + 1, none => []
  | fuel + 1, some i =>
    match c.node? i with
    | none => []
    | some node => (i, node.value) :: c.walk step fuel (step node)

/-- The slots in use and their values, from the front. No slot is met twice, so there are at most
as many as the array has. -/
def toSlots (c : Chain α) : List (Slot × α) :=
  c.walk Node.after c.slots.size c.frontSlot

/-- The slots in use and their values, from the back. -/
def toSlotsBack (c : Chain α) : List (Slot × α) :=
  c.walk Node.before c.slots.size c.backSlot

def toList (c : Chain α) : List α :=
  c.toSlots.map Prod.snd

def toListBack (c : Chain α) : List α :=
  c.toSlotsBack.map Prod.snd

/-! ## Links -/

/-- Changes the node in a slot, if the slot is in use. -/
def modifyNode (c : Chain α) (i : Slot) (f : Node α → Node α) : Chain α :=
  { c with slots := c.slots.modify i (·.map f) }

/-- Makes `target` the node after `i`. -/
def setAfter (c : Chain α) (i target : Option Slot) : Chain α :=
  match i with
  | none => { c with frontSlot := target }
  | some i => c.modifyNode i ({ · with after := target })

/-- Makes `target` the node before `i`. -/
def setBefore (c : Chain α) (i target : Option Slot) : Chain α :=
  match i with
  | none => { c with backSlot := target }
  | some i => c.modifyNode i ({ · with before := target })

/-- The node before `anchor`. -/
def beforeAnchor (c : Chain α) (anchor : Option Slot) : Option Slot :=
  match anchor with
  | none => c.backSlot
  | some i => c.before? i

/-- Links the node of a slot, which is in no list, directly ahead of `anchor`. -/
def linkBefore (c : Chain α) (i : Slot) (anchor : Option Slot) : Chain α :=
  let before := c.beforeAnchor anchor
  let c := c.modifyNode i ({ · with before := before, after := anchor })
  (c.setAfter before (some i)).setBefore anchor (some i)

/-- Joins the neighbours of a slot, so that its node is in no list. -/
def unlink (c : Chain α) (i : Slot) : Chain α :=
  match c.node? i with
  | none => c
  | some node => (c.setAfter node.before node.after).setBefore node.after node.before

/-- Puts a value into a slot, linked to nothing. The slot freed last is used first. -/
def allocate (c : Chain α) (value : α) : Slot × Chain α :=
  match c.free with
  | i :: free =>
    (i, { c with slots := c.slots.setIfInBounds i (some { value }), free, size := c.size + 1 })
  | [] => (c.slots.size, { c with slots := c.slots.push (some { value }), size := c.size + 1 })

/-- Empties a slot, whose node is in no list. -/
def release (c : Chain α) (i : Slot) : Chain α :=
  { c with slots := c.slots.setIfInBounds i none, free := i :: c.free, size := c.size - 1 }

/-! ## Adding values -/

/-- Adds a value at the front, and tells its slot. -/
def pushFront (c : Chain α) (value : α) : Slot × Chain α :=
  let (i, c) := c.allocate value
  (i, c.linkBefore i c.frontSlot)

/-- Adds a value at the back, and tells its slot. -/
def pushBack (c : Chain α) (value : α) : Slot × Chain α :=
  let (i, c) := c.allocate value
  (i, c.linkBefore i none)

/-- Adds a value directly ahead of the one in a slot, or at the back if the slot is not in use, and
tells its slot. Whether the anchor is in use is settled first, as the new value may get its slot. -/
def insertBefore (c : Chain α) (anchor : Slot) (value : α) : Slot × Chain α :=
  let target := if c.isLive anchor then some anchor else none
  let (i, c) := c.allocate value
  (i, c.linkBefore i target)

/-! ## Removing values -/

/-- Takes the value out of a slot. -/
def remove (c : Chain α) (i : Slot) : Option α × Chain α :=
  match c.node? i with
  | none => (none, c)
  | some node => (some node.value, (c.unlink i).release i)

/-- Takes the value out of the slot, if one is given. -/
def remove? (c : Chain α) (i : Option Slot) : Option α × Chain α :=
  match i with
  | none => (none, c)
  | some i => c.remove i

def popFront (c : Chain α) : Option α × Chain α :=
  c.remove? c.frontSlot

def popBack (c : Chain α) : Option α × Chain α :=
  c.remove? c.backSlot

/-- Removes every value, and all slots. -/
def clear (_ : Chain α) : Chain α := empty

/-! ## Changing values and their order -/

def modify (c : Chain α) (i : Slot) (f : α → α) : Chain α :=
  c.modifyNode i fun node => { node with value := f node.value }

/-- Replaces the value in a slot, and tells the one that was there. -/
def replace (c : Chain α) (i : Slot) (value : α) : Option α × Chain α :=
  (c.get? i, c.modify i fun _ => value)

/-- Moves the value of a slot to the front, and tells whether the slot is in use. -/
def moveToFront (c : Chain α) (i : Slot) : Bool × Chain α :=
  if c.isLive i then
    if c.frontSlot = some i then (true, c)
    else
      let c := c.unlink i
      (true, c.linkBefore i c.frontSlot)
  else (false, c)

/-- Moves the value of a slot directly ahead of another one, and tells whether both slots are in
use and differ. -/
def moveBefore (c : Chain α) (i anchor : Slot) : Bool × Chain α :=
  if i ≠ anchor ∧ c.isLive i ∧ c.isLive anchor then
    if c.after? i = some anchor then (true, c)
    else (true, (c.unlink i).linkBefore i (some anchor))
  else (false, c)

end Chain

end BoundedCache
