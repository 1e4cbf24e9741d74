import BoundedCache.Stats.Tally

/-!
# Registry of tallies

Tallies that several parties share live in numbered cells. The registry gives names to cells: what
is recorded through a cell is seen through all of its names, and a name can be bound anew.

## Main definitions

- `Cell` — a handle to a shared tally
- `Registry` — the cells, and the names of some of them
- `Registry.fresh`, `Registry.record`, `Registry.zero`, `Registry.tally` — work on cells
- `Registry.register`, `Registry.cell?`, `Registry.snapshot?`, `Registry.reset` — work through names
- `Registry.names` — the names that are bound
-/

namespace BoundedCache

/-- A handle to a shared tally. -/
abbrev Cell := Nat

/-- Shared tallies, and names for them. Cells are never taken away. -/
structure Registry where
  cells : Array Tally := #[]
  bindings : List (String × Cell) := []

namespace Registry

/-- The tally of a cell; zero for a cell that was never given out. -/
def tally (r : Registry) (cell : Cell) : Tally := r.cells.getD cell {}

/-- A new cell. -/
def fresh (r : Registry) : Cell × Registry :=
  (r.cells.size, { r with cells := r.cells.push {} })

/-- Counts events in a cell. -/
def record (r : Registry) (cell : Cell) (events : List Event) : Registry :=
  { r with cells := r.cells.modify cell (·.recordAll events) }

/-- Sets a cell to zero. -/
def zero (r : Registry) (cell : Cell) : Registry :=
  { r with cells := r.cells.modify cell fun _ => {} }

/-- Binds a name to a cell; a former binding of the name is forgotten. -/
def register (r : Registry) (name : String) (cell : Cell) : Registry :=
  { r with bindings := (name, cell) :: r.bindings.filter (·.1 != name) }

/-- The cell that a name is bound to. -/
def cell? (r : Registry) (name : String) : Option Cell :=
  (r.bindings.find? (·.1 == name)).map Prod.snd

/-- The present tally of the cell that a name is bound to. -/
def snapshot? (r : Registry) (name : String) : Option Tally := (r.cell? name).map r.tally

/-- Sets the cell of a name to zero, and tells whether there is one. -/
def reset (r : Registry) (name : String) : Bool × Registry :=
  match r.cell? name with
  | none => (false, r)
  | some cell => (true, r.zero cell)

/-- Forgets all names; the cells stay as they are. -/
def clear (r : Registry) : Registry := { r with bindings := [] }

/-- The names that are bound, in the order of their code points. -/
def names (r : Registry) : List String :=
  (r.bindings.map Prod.fst).mergeSort fun a b => !(b < a)

end Registry

end BoundedCache
