import BoundedCache.Stats.Registry
import BoundedCache.Store.Request

/-!
# Dashboards

A dashboard holds a registry together with the stores that count into its cells, and keeps the
readings taken of it. A store that is taken off the dashboard leaves its cell behind.

## Main definitions

- `Dashboard` — the registry, the watched stores, and the readings
- `Dashboard.Command` — one step of work with a dashboard
- `Dashboard.Answer` — what a step tells
- `Dashboard.perform`, `Dashboard.performAll` — the effect of one step, and of a sequence
-/

namespace BoundedCache

/-- A store with the cell that it counts into. -/
structure Watched (σ : Type) where
  cell : Cell
  store : σ

/-- A registry, the stores that count into its cells, and the readings taken so far. -/
structure Dashboard (σ : Type) where
  registry : Registry := {}
  stores : List (Watched σ) := []
  /-- The tallies that were read, in the order in which they were read. -/
  readings : List Tally := []

namespace Dashboard

variable {σ κ ν : Type}

/-- One step of work with a dashboard. Stores are named by their place in the list. -/
inductive Command (σ κ ν : Type) where
  /-- Ask for a new cell. -/
  | fresh
  /-- Watch a store, which counts into a new cell. -/
  | watch (store : σ)
  /-- Carry out an operation on a watched store. -/
  | use (place : Nat) (request : Request κ ν)
  /-- Take a store off the dashboard. -/
  | drop (place : Nat)
  /-- Bind a name to a cell. -/
  | register (name : String) (cell : Cell)
  /-- Count events in a cell. -/
  | record (cell : Cell) (events : List Event)
  /-- Set a cell to zero. -/
  | zero (cell : Cell)
  /-- Ask for the cell of a name. -/
  | find (name : String)
  /-- Ask for the names that are bound. -/
  | names
  /-- Read the present tally of a name, and keep the reading. -/
  | snapshot (name : String)
  /-- Set the cell of a name to zero. -/
  | reset (name : String)
  /-- Forget all names. -/
  | clear

/-- What a step tells. -/
inductive Answer (κ ν : Type) where
  /-- A cell, if there is one. -/
  | cell (cell : Option Cell)
  /-- The reply of a store, if there is one at the place. -/
  | reply (reply : Option (Reply κ ν))
  /-- A tally, if there is one. -/
  | tally (tally : Option Tally)
  /-- Whether the name is bound. -/
  | found (found : Bool)
  | names (names : List String)
  | done
  deriving DecidableEq

variable [Store σ κ ν]

/-- Carries out an operation on a watched store, and counts what it gives rise to. -/
def useStore (d : Dashboard σ) (place : Nat) (request : Request κ ν) :
    Option (Reply κ ν) × Dashboard σ :=
  match d.stores[place]? with
  | none => (none, d)
  | some watched =>
    let (outcome, store) := Store.perform watched.store request
    (some outcome.reply,
      { d with
        registry := d.registry.record watched.cell outcome.events
        stores := d.stores.set place { watched with store } })

/-- The effect of one step. -/
def perform (d : Dashboard σ) : Command σ κ ν → Answer κ ν × Dashboard σ
  | .fresh =>
    let (cell, registry) := d.registry.fresh
    (.cell (some cell), { d with registry })
  | .watch store =>
    let (cell, registry) := d.registry.fresh
    (.cell (some cell), { d with registry, stores := d.stores ++ [⟨cell, store⟩] })
  | .use place request => (d.useStore place request).map .reply id
  | .drop place => (.done, { d with stores := d.stores.eraseIdx place })
  | .register name cell => (.done, { d with registry := d.registry.register name cell })
  | .record cell events => (.done, { d with registry := d.registry.record cell events })
  | .zero cell => (.done, { d with registry := d.registry.zero cell })
  | .find name => (.cell (d.registry.cell? name), d)
  | .names => (.names d.registry.names, d)
  | .snapshot name =>
    let tally := d.registry.snapshot? name
    (.tally tally, { d with readings := d.readings ++ tally.toList })
  | .reset name =>
    let (found, registry) := d.registry.reset name
    (.found found, { d with registry })
  | .clear => (.done, { d with registry := d.registry.clear })

/-- The dashboard after a sequence of steps. -/
def performAll (d : Dashboard σ) (commands : List (Command σ κ ν)) : Dashboard σ :=
  commands.foldl (fun d command => (d.perform command).2) d

end Dashboard

end BoundedCache
